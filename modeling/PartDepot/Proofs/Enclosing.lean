import PartDepot.Proofs.Members
import PartDepot.Proofs.Outside

/-!
# The enclosing project

A search upwards takes parts off the end of a path.  Where the path does not climb and nothing
is linked, this is a walk through the directories that enclose its goal, and the nearest
project among them is found. The walk ends where the path starts: at the root for an absolute
path, at the working directory for any other.
-/

namespace PartDepot

/-! ## Parts that are taken off -/

namespace Path

/-- A piece that says more than a dot does. -/
def isSolid (piece : List Char) : Bool := !piece.isEmpty && piece != ['.']

theorem way_eq (p : Path) : p.way = (p.pieces.filter isSolid).map String.ofList := by
  unfold way names
  rw [List.filter_map, List.filter_filter]
  congr 1
  refine List.filter_congr fun piece _ => ?_
  have hdot : String.ofList piece = "." ↔ piece = ['.'] := by
    rw [← String.toList_inj, String.toList_ofList]
    rfl
  rw [Bool.eq_iff_iff]
  simp [isSolid, hdot, and_comm]

theorem filter_dropIdle (pieces : List (List Char)) :
    (dropIdle pieces).filter isSolid = pieces.filter isSolid := by
  induction pieces with
  | nil => rfl
  | cons first rest ih =>
      unfold dropIdle
      split
      · rfl
      · next hidle =>
        have hsolid : ¬isSolid first = true := by
          intro hsolid
          simp [isSolid, isPart] at hsolid hidle
          simp_all
        rw [ih, List.filter_cons_of_neg hsolid]

theorem isPart_of_dropIdle {pieces rest : List (List Char)} {last : List Char}
    (h : dropIdle pieces = last :: rest) : isPart rest.isEmpty last = true := by
  induction pieces with
  | nil => simp [dropIdle] at h
  | cons first others ih =>
      unfold dropIdle at h
      split at h
      · next hpart =>
        obtain ⟨rfl, rfl⟩ := List.cons.inj h
        exact hpart
      · exact ih h

theorem way_of_parent? {p q : Path} (h : p.parent? = some q) : q.way = p.way.dropLast := by
  obtain ⟨last, before, hlast, hq⟩ := parent?_inv h
  have hpWay : (p.pieces.filter isSolid).reverse = (last :: before).filter isSolid := by
    rw [← List.filter_reverse, ← filter_dropIdle, hlast]
  have hqWay : (q.pieces.filter isSolid).reverse = before.filter isSolid := by
    rw [← List.filter_reverse, ← filter_dropIdle before]
    rcases hq with ⟨hnone, rfl⟩ | ⟨-, hkept⟩
    · rw [hnone]
      cases p.isAbsolute <;> rfl
    · rw [hkept]
  have htail : (q.pieces.filter isSolid).reverse = (p.pieces.filter isSolid).reverse.tail := by
    rw [hqWay, hpWay]
    by_cases hsolid : isSolid last = true
    · rw [List.filter_cons_of_pos hsolid, List.tail_cons]
    · -- The one part that is not solid is a dot, and nothing is before it.
      have hpart := isPart_of_dropIdle hlast
      have hnone : before = [] := by
        simp only [isSolid, isPart] at hsolid hpart
        simp_all
      rw [hnone, List.filter_cons_of_neg hsolid]
      rfl
  rw [way_eq, way_eq, ← List.map_dropLast, ← List.reverse_reverse (q.pieces.filter isSolid), htail,
    List.tail_reverse, List.reverse_reverse]

/-- How many parts there are to be taken off. -/
def height (p : Path) : Nat := (dropIdle p.pieces.reverse).length

theorem dropIdle_dropIdle (pieces : List (List Char)) :
    dropIdle (dropIdle pieces) = dropIdle pieces := by
  induction pieces with
  | nil => rfl
  | cons first rest ih =>
      by_cases hpart : isPart rest.isEmpty first = true
      · have hkept : dropIdle (first :: rest) = first :: rest := if_pos hpart
        rw [hkept, hkept]
      · have hdropped : dropIdle (first :: rest) = dropIdle rest := if_neg hpart
        rw [hdropped, ih]

theorem height_of_parent? {p q : Path} (h : p.parent? = some q) : q.height < p.height := by
  obtain ⟨last, before, hlast, hq⟩ := parent?_inv h
  unfold height
  rw [hlast, List.length_cons]
  rcases hq with ⟨-, rfl⟩ | ⟨-, hkept⟩
  · cases p.isAbsolute <;> exact Nat.succ_pos _
  · rw [hkept, dropIdle_dropIdle]
    exact Nat.lt_succ_of_le (dropIdle_suffix before).length_le

theorem height_le (p : Path) : p.height ≤ p.pieces.length := by
  have hle := (dropIdle_suffix p.pieces.reverse).length_le
  rwa [List.length_reverse] at hle

theorem joinSlashes_prefix {a b : List (List Char)} (h : a <+: b) :
    joinSlashes a <+: joinSlashes b := by
  induction a generalizing b with
  | nil => exact List.nil_prefix
  | cons first a ih =>
      obtain ⟨rest, rfl⟩ := h
      cases a with
      | nil =>
          cases rest with
          | nil => exact List.prefix_refl _
          | cons next rest => exact List.prefix_append _ _
      | cons next a =>
          have hrest := ih (List.prefix_append (next :: a) rest)
          simp only [List.cons_append, joinSlashes] at hrest ⊢
          exact (List.prefix_append_right_inj _).mpr (List.cons_prefix_cons.mpr ⟨rfl, hrest⟩)

theorem text_of_parent? {p q : Path} (h : p.parent? = some q) :
    q.text.toList <+: p.text.toList := by
  rcases parent?_cases h with rfl | ⟨hfront, -⟩
  · cases habsolute : p.isAbsolute with
    | false => exact List.nil_prefix
    | true =>
        obtain ⟨rest, htext⟩ := List.head?_eq_some_iff.mp (eq_of_beq habsolute)
        rw [htext]
        exact List.prefix_append ['/'] rest
  · have htexts := joinSlashes_prefix hfront
    unfold pieces at htexts
    rwa [joinSlashes_splitSlashes, joinSlashes_splitSlashes] at htexts

theorem names_of_parent? {p q : Path} (h : p.parent? = some q) : q.names <+: p.names := by
  rcases parent?_cases h with rfl | ⟨hfront, -⟩
  · have hnone : (Path.mk (if p.isAbsolute then "/" else "")).names = [] := by
      cases p.isAbsolute <;> decide
    rw [hnone]
    exact List.nil_prefix
  · exact (hfront.filter _).map _

theorem utf8ByteSize_join (p : Path) {name : String} (h : IsPiece name) :
    p.text.utf8ByteSize + name.utf8ByteSize ≤ (p.join name).text.utf8ByteSize ∧
      (p.join name).text.utf8ByteSize ≤ p.text.utf8ByteSize + 1 + name.utf8ByteSize := by
  have hslash : "/".utf8ByteSize = 1 := by decide
  unfold join
  rw [if_neg (by simp [h.head_ne_slash])]
  split
  · simp only [String.utf8ByteSize_append]
    omega
  · simp only [String.utf8ByteSize_append, hslash]
    omega

theorem mem_join_iff {p : Path} {name : String} (h : IsPiece name) {c : Char} (hc : c ≠ '/') :
    c ∈ (p.join name).text.toList ↔ c ∈ p.text.toList ∨ c ∈ name.toList := by
  unfold join
  rw [if_neg (by simp [h.head_ne_slash])]
  split
  · simp
  · simp [hc]

/-- A path above is shorter. -/
theorem utf8ByteSize_of_parent? {p q : Path} (h : p.parent? = some q) :
    q.text.utf8ByteSize < p.text.utf8ByteSize := by
  obtain ⟨rest, hrest⟩ := text_of_parent? h
  have htext : p.text = q.text ++ String.ofList rest :=
    String.toList_injective (by rw [String.toList_append, String.toList_ofList, hrest])
  have hne : String.ofList rest ≠ "" := by
    intro hnone
    have hsame : p = q := by
      obtain ⟨text⟩ := p
      rw [hnone, String.append_empty] at htext
      exact congrArg Path.mk htext
    exact absurd (height_of_parent? h) (by rw [hsame]; exact Nat.lt_irrefl _)
  have hsize : (String.ofList rest).utf8ByteSize ≠ 0 := fun hzero =>
    hne (String.utf8ByteSize_eq_zero_iff.mp hzero)
  rw [htext, String.utf8ByteSize_append]
  omega

end Path

namespace Project

/-- One path is another one with some parts taken off. -/
inductive Climbs : Path → Path → Prop
  | here (p : Path) : Climbs p p
  | up {p q root : Path} : p.parent? = some q → Climbs q root → Climbs p root

theorem prefix_dropLast {front all : List String} (h : front <+: all) :
    front = all ∨ front <+: all.dropLast := by
  rcases List.eq_nil_or_concat all with rfl | ⟨before, last, rfl⟩
  · exact .inr h
  · rw [List.concat_eq_append] at h ⊢
    rw [List.dropLast_concat]
    exact List.prefix_concat_iff.mp h

/-- A search upwards, for something that depends on the way of a path alone: it ends at the first
path with it, or there is none at all. -/
theorem firstAbove_spec {holds : Path → Bool} {P : List String → Prop} {count : Nat} {p : Path}
    (hcount : p.height < count) (h : ∀ q, Climbs p q → (holds q = true ↔ P q.way)) :
    (∃ root, firstAbove holds count p = some root ∧ Climbs p root ∧ P root.way ∧
      ∀ front, root.way <+: front → front <+: p.way → front ≠ root.way → ¬P front) ∨
    (firstAbove holds count p = none ∧ ∀ front, front <+: p.way → ¬P front) := by
  induction count generalizing p with
  | zero => omega
  | succ count ih =>
      rw [firstAbove]
      cases hholds : holds p with
      | true =>
          refine .inl ⟨p, rfl, .here p, (h p (.here p)).mp hholds, fun front hroot hfront hne => ?_⟩
          exact absurd (hfront.eq_of_length_le hroot.length_le) hne
      | false =>
          have hhere : ¬P p.way := fun hP => by
            rw [(h p (.here p)).mpr hP] at hholds
            cases hholds
          rw [if_neg (by simp)]
          cases hparent : p.parent? with
          | none =>
              refine .inr ⟨rfl, fun front hfront => ?_⟩
              rw [Path.way_of_no_parent hparent] at hfront hhere
              rwa [List.prefix_nil.mp hfront]
          | some above =>
              have hway := Path.way_of_parent? hparent
              have hheight := Path.height_of_parent? hparent
              have hfronts {front : List String} (hfront : front <+: p.way) :
                  front = p.way ∨ front <+: above.way := by
                rw [hway]
                exact prefix_dropLast hfront
              dsimp only
              rcases ih (by omega) fun q hq => h q (.up hparent hq) with
                ⟨root, hfound, hclimb, hP, hnone⟩ | ⟨hfound, hnone⟩
              · refine .inl ⟨root, hfound, .up hparent hclimb, hP, fun front hroot hfront hne => ?_⟩
                rcases hfronts hfront with rfl | hfront
                · exact hhere
                · exact hnone front hroot hfront hne
              · refine .inr ⟨hfound, fun front hfront => ?_⟩
                rcases hfronts hfront with rfl | hfront
                · exact hhere
                · exact hnone front hfront

theorem fileName_isPiece : Path.IsPiece fileName := ⟨by decide, by decide⟩

namespace Climbs

variable {d : Disk} {p q : Path}

theorem names (h : Climbs p q) : q.names <+: p.names := by
  induction h with
  | here p => exact List.prefix_refl _
  | up hparent _ ih => exact ih.trans (Path.names_of_parent? hparent)

theorem isAbsolute (h : Climbs p q) : q.isAbsolute = p.isAbsolute := by
  induction h with
  | here p => rfl
  | up hparent _ ih => exact ih.trans (Path.parent?_way hparent).2

theorem way (h : Climbs p q) : q.way <+: p.way := h.names.filter _

theorem utf8ByteSize_join (h : Climbs p q) {name : String} (hname : Path.IsPiece name) :
    (q.join name).text.utf8ByteSize ≤ (p.join name).text.utf8ByteSize := by
  induction h with
  | here p => exact Nat.le_refl _
  | @up p above q hparent _ ih =>
      have hshorter := Path.utf8ByteSize_of_parent? hparent
      have habove := (above.utf8ByteSize_join hname).2
      have hbelow := (p.utf8ByteSize_join hname).1
      omega

theorem mem_join (h : Climbs p q) {name : String} (hname : Path.IsPiece name) {c : Char}
    (hc : c ≠ '/') (hmem : c ∈ (q.join name).text.toList) : c ∈ (p.join name).text.toList := by
  induction h with
  | here p => exact hmem
  | up hparent _ ih =>
      rcases (Path.mem_join_iff hname hc).mp (ih hmem) with habove | hname'
      · exact (Path.mem_join_iff hname hc).mpr (.inl ((Path.text_of_parent? hparent).subset habove))
      · exact (Path.mem_join_iff hname hc).mpr (.inr hname')

/-- A name at a path above can be looked up if it can be at the path. -/
theorem start_join (h : Climbs p q) {name : String} (hname : Path.IsPiece name) {place : Place}
    (hstart : d.start (p.join name) = .ok place) : d.start (q.join name) = .ok place := by
  refine Disk.start_of_shorter ?_ (h.mem_join hname (by decide)) (h.utf8ByteSize_join hname)
    ?_ hstart
  · intro hempty
    have hnames := Path.names_join hname q
    rw [show q.join name = ⟨""⟩ from congrArg Path.mk hempty,
      show (Path.mk "").names = [] by decide] at hnames
    simp at hnames
  · rw [Path.isAbsolute_join hname, Path.isAbsolute_join hname, h.isAbsolute]

end Climbs

/-- A directory that has a project file. -/
def At (d : Disk) (place : Place) : Prop :=
  ∃ content, d.node? (place ++ [fileName]) = some (.file content)

/-- Of the places from a floor to a home, the last one with a project. -/
structure Nearest (d : Disk) (floor home place : Place) : Prop where
  above : floor <+: place
  below : place <+: home
  project : At d place
  nearest : ∀ other, place <+: other → other <+: home → other ≠ place → ¬At d other

variable {d : Disk} {start : Path}

/-- On a disk without links, a path that leads to a directory and does not climb leads there
by its names. -/
theorem along_of_leads (hlinks : ∀ q, d.NoLink q) {p : Path} {home : Place} (h : d.Leads p home)
    (hstraight : ".." ∉ p.names) : home = d.along p := by
  obtain ⟨links, henters⟩ := h
  unfold Disk.along Path.way
  generalize Disk.linkLimit = most at henters
  generalize d.origin p = origin at henters ⊢
  generalize p.names = names at henters hstraight ⊢
  induction henters with
  | here => simp
  | on hon _ ih =>
      have hrest := ih fun hup => hstraight (List.mem_cons_of_mem _ hup)
      rcases Disk.stride_eq_on_iff.mp hon with ⟨rfl, rfl⟩ | ⟨-, rfl, -⟩ | ⟨hdot, -, -, -, rfl⟩
      · rw [hrest, List.filter_cons_of_neg (by simp)]
      · exact absurd List.mem_cons_self hstraight
      · rw [hrest, List.filter_cons_of_pos (by simpa using hdot), List.append_assoc]
        rfl
  | link hlink _ _ =>
      obtain ⟨-, -, -, -, target, hnode, -⟩ := Disk.stride_eq_link_iff.mp hlink
      exact absurd hnode (hlinks _ target)

theorem leads_of_climbs {p q : Path} (h : Climbs p q) {home : Place} (hleads : d.Leads p home) :
    ∃ place, d.Leads q place := by
  obtain ⟨more, hmore⟩ := h.names
  obtain ⟨links, henters⟩ := hleads
  rw [← hmore] at henters
  obtain ⟨mid, place, hfront, -⟩ := henters.split q.names
  refine ⟨place, mid, ?_⟩
  rwa [Disk.origin, h.isAbsolute, ← Disk.origin]

theorem isRoot_iff (hlinks : ∀ q, d.NoLink q) {p : Path} {home place : Place} (h : d.Leads p home)
    (hstart : d.start (p.join fileName) = .ok place) : isRoot d p = true ↔ At d home := by
  have hfind := h.find_unlinked (by decide +kernel) (hlinks _) hstart true
  rw [if_neg (by decide +kernel)] at hfind
  unfold isRoot Disk.isFile At
  rw [hfind, Disk.spotAt]
  cases d.node? (home ++ [fileName]) with
  | none => simp
  | some n => cases n <;> simp

/-- On a disk without links, from a directory that a path leads to without climbing, the project
that is found is the nearest one of the directories that enclose it, up to where the path starts,
and none is found if there is none among them. -/
theorem findRoot_nearest (hlinks : ∀ q, d.NoLink q) (hdir : d.isDir start = true)
    (hstraight : ".." ∉ start.names)
    (hshort : (start.join fileName).text.utf8ByteSize ≤ Disk.pathLimit) :
    (∃ root place, findRoot d start = .ok root ∧ d.Leads root place ∧
      Nearest d (d.origin start) (d.along start) place) ∨
    (findRoot d start = .error (.noProject start) ∧
      ∀ place, d.origin start <+: place → place <+: d.along start → ¬At d place) := by
  obtain ⟨home, hleads, hstart⟩ : ∃ home, d.Leads start home ∧
      d.start (start.join fileName) = .ok (d.origin start) := by
    unfold Disk.isDir at hdir
    split at hdir
    · next home hfind =>
      refine ⟨home, Disk.leads_of_find hfind, ?_⟩
      cases hstart : d.start start with
      | error fault => simp [Disk.find_of_no_start hstart] at hfind
      | ok place =>
          rw [Disk.start_join fileName_isPiece (by decide) hstart, if_neg (by omega),
            Disk.start_eq hstart]
    · cases hdir
  have hplaces {q : Path} (hclimb : Climbs start q) : d.Leads q (d.origin start ++ q.way) := by
    obtain ⟨place, hq⟩ := leads_of_climbs hclimb hleads
    have hplace := along_of_leads hlinks hq fun hup => hstraight (hclimb.names.subset hup)
    rw [Disk.along, Disk.origin, hclimb.isAbsolute, ← Disk.origin] at hplace
    exact hplace ▸ hq
  have hroots (q : Path) (hclimb : Climbs start q) :
      isRoot d q = true ↔ At d (d.origin start ++ q.way) :=
    isRoot_iff hlinks (hplaces hclimb) (hclimb.start_join fileName_isPiece hstart)
  have hfronts {place : Place} (hfloor : d.origin start <+: place)
      (hhome : place <+: d.along start) :
      ∃ front, place = d.origin start ++ front ∧ front <+: start.way := by
    obtain ⟨front, rfl⟩ := hfloor
    exact ⟨front, rfl, (List.prefix_append_right_inj _).mp hhome⟩
  unfold findRoot
  rcases firstAbove_spec (P := fun way => At d (d.origin start ++ way))
    (Nat.lt_succ_of_le start.height_le) hroots with
    ⟨root, hfound, hclimb, hproject, hnone⟩ | ⟨hfound, hnone⟩
  · rw [hfound]
    refine .inl ⟨root, _, rfl, hplaces hclimb, List.prefix_append _ _,
      (List.prefix_append_right_inj _).mpr hclimb.way, hproject, fun other hroot hhome hne => ?_⟩
    obtain ⟨front, rfl, hfront⟩ := hfronts ((List.prefix_append _ _).trans hroot) hhome
    exact hnone front ((List.prefix_append_right_inj _).mp hroot) hfront
      fun heq => hne (by rw [heq])
  · rw [hfound]
    refine .inr ⟨rfl, fun place hfloor hhome => ?_⟩
    obtain ⟨front, rfl, hfront⟩ := hfronts hfloor hhome
    exact hnone front hfront

/-- A path that climbs by two dots has them taken off as any other part: below `a` a project is
found that does not enclose the goal of `a/..`. -/
theorem findRoot_climbs_by_text :
    let d : Disk := ⟨[(["a"], .dir), (["a", "partfetch.yaml"], .file ByteArray.empty)], []⟩
    findRoot d ⟨"a/.."⟩ = .ok ⟨"a"⟩ ∧ d.list ⟨"a/.."⟩ = .ok ["a"] ∧
      findRoot d ⟨"."⟩ = .error (.noProject ⟨"."⟩) := by
  decide +kernel

/-- A search that does not start at the root ends at the working directory, and misses the project
above that is found from the same place by its absolute path. -/
theorem findRoot_ends_at_working_directory :
    let d : Disk := ⟨[(["s"], .dir), (["partfetch.yaml"], .file ByteArray.empty)], ["s"]⟩
    findRoot d ⟨"."⟩ = .error (.noProject ⟨"."⟩) ∧ findRoot d d.workingDirectory = .ok ⟨"/"⟩ := by
  decide +kernel

end Project

end PartDepot
