import PartDepot.Proofs.Extraction

/-!
# What archives unpack to

Unpacking an archive comes to making directories, removing what is no directory, and putting files
and links where no directory stands.  So whatever it yields stands in a directory, and without links
among the entries there are none among the places.
-/

namespace PartDepot

open Disk

/-! ## Grounded disks -/

/-- Whatever stands on the disk stands in a directory. -/
def Disk.Grounded (d : Disk) : Prop := ∀ q n, d.node? q = some n → d.node? q.dropLast = some .dir

/-- A spot in a directory, with what stands there. -/
structure Disk.Spot.Sits (d : Disk) (s : Spot) : Prop where
  node : d.node? s.place = s.node?
  parent : d.node? s.place.dropLast = some .dir

theorem Disk.Spot.Sits.not_dir {d : Disk} {s : Spot} (h : s.Sits d) (hs : s.node? ≠ some .dir) :
    d.node? s.place ≠ some .dir := h.node ▸ hs

namespace Disk.Grounded

variable {d : Disk}

theorem below (h : d.Grounded) {q rest : Place} (hrest : rest ≠ []) {n : Node}
    (hn : d.node? (q ++ rest) = some n) : d.node? q = some .dir := by
  induction rest generalizing q with
  | nil => exact absurd rfl hrest
  | cons name rest ih =>
      have hname : ∃ m, d.node? (q ++ [name]) = some m := by
        by_cases hlast : rest = []
        · exact ⟨n, by rw [← hlast]; exact hn⟩
        · exact ⟨.dir, ih hlast (by rwa [List.append_assoc])⟩
      obtain ⟨m, hm⟩ := hname
      have hparent := h _ m hm
      rwa [List.dropLast_concat] at hparent

theorem walk (h : d.Grounded) {follow : Bool} {links : Nat} {place : Place} {names : List String}
    (hplace : d.node? place = some .dir) {s : Spot} (hs : d.walk follow links place names = .ok s) :
    s.Sits d := by
  refine walk_inStep d d follow follow (fun place _ => d.node? place = some .dir)
    (fun r _ => ∀ s, r = .ok s → s.Sits d) ?_ (by simp) (fun _ _ => id) ?_ ?_ links place names
    hplace s hs
  · rintro place hdir s hs
    obtain rfl := Except.ok.inj hs
    exact ⟨hdir, h _ _ hdir⟩
  · intro place rest hdir
    exact h _ _ hdir
  · intro place name rest _ _ hdir
    have hsits {s : Spot} (hspot : s.place = place ++ [name])
        (hnode : d.node? (place ++ [name]) = s.node?) : s.Sits d := by
      refine ⟨by rw [hspot, hnode], ?_⟩
      rw [hspot, List.dropLast_concat, hdir]
    cases hnode : d.node? (place ++ [name]) with
    | none =>
        refine .stop fun s hs => ?_
        split at hs
        · obtain rfl := Except.ok.inj hs
          exact hsits rfl hnode
        · simp at hs
    | some n =>
        cases n with
        | file content =>
            refine .stop fun s hs => ?_
            split at hs
            · obtain rfl := Except.ok.inj hs
              exact hsits rfl hnode
            · simp at hs
        | dir => exact .on hnode
        | link target =>
            rw [Stride.ofNode_link]
            split
            · refine .stop fun s hs => ?_
              obtain rfl := Except.ok.inj hs
              exact hsits rfl hnode
            · refine .link ?_
              split
              · rfl
              · exact hdir

theorem find (h : d.Grounded) (hhere : d.node? d.here = some .dir) {follow : Bool} {p : Path}
    {s : Spot} (hs : d.find follow p = .ok s) : s.Sits d := by
  cases hstart : d.start p with
  | error fault => simp [find_of_no_start hstart] at hs
  | ok place =>
      rw [find_of_start hstart] at hs
      refine h.walk ?_ hs
      rw [start_eq hstart, origin]
      split
      · rfl
      · exact hhere

theorem put (h : d.Grounded) {q : Place} (hroot : q ≠ []) {n : Node}
    (hparent : d.node? q.dropLast = some .dir) (hq : d.node? q = some .dir → n = .dir) :
    (d.put q n).Grounded := by
  intro r m hm
  have hone : (d.put q n).node? r.dropLast = d.node? r.dropLast ∨
      r.dropLast = q ∧ (d.put q n).node? r.dropLast = some n := by
    rw [node?_put hroot]
    split
    · next hself => exact .inr ⟨hself, rfl⟩
    · exact .inl rfl
  have hdir : d.node? r.dropLast = some .dir := by
    rw [node?_put hroot] at hm
    split at hm
    · next hself => rw [hself, hparent]
    · exact h r m hm
  rcases hone with hsame | ⟨hself, hput⟩
  · rw [hsame, hdir]
  · rw [hput, hq (hself ▸ hdir)]

theorem erase (h : d.Grounded) {q : Place} (hq : d.node? q ≠ some .dir) : (d.erase q).Grounded := by
  have hroot : q ≠ [] := by
    rintro rfl
    exact hq rfl
  intro r m hm
  rw [node?_erase hroot] at hm ⊢
  split at hm
  · simp at hm
  · have hdir := h r m hm
    rw [if_neg, hdir]
    rintro hself
    exact hq (hself ▸ hdir)

theorem makeDirsFrom (h : d.Grounded) {place : Place} (hplace : d.node? place = some .dir)
    (names : List String) : (d.makeDirsFrom place names).2.Grounded := by
  induction names generalizing d place with
  | nil => exact h
  | cons name rest ih =>
      rcases d.makeDirsFrom_cons place name rest with ⟨next, hdir⟩ | ⟨hfree, hmake⟩ | ⟨fault, hmake⟩
      · rw [makeDirsFrom_of_dir rest hdir]
        exact ih h (h.walk hplace hdir).node
      · rw [hmake]
        have hsits := h.walk hplace hfree
        have hput : (d.put (place ++ [name]) .dir).Grounded :=
          h.put (by simp) hsits.parent fun _ => rfl
        refine ih hput ?_
        rw [node?_put (by simp)]
        exact if_pos rfl
      · rw [hmake]
        exact h

theorem makeDirs (h : d.Grounded) (hhere : d.node? d.here = some .dir) (p : Path) :
    (d.makeDirs p).2.Grounded := by
  unfold Disk.makeDirs
  split
  · exact h
  · cases hstart : d.start p with
    | error fault => exact h
    | ok place =>
        refine h.makeDirsFrom ?_ _
        rw [start_eq hstart, origin]
        split
        · rfl
        · exact hhere

end Disk.Grounded

namespace Tar

/-! ## What an entry does -/

/-- The steps by which entries are unpacked. Links are made only if there are entries for them. -/
inductive Edits (links : Prop) : Disk → Disk → Prop
  | refl {d : Disk} : Edits links d d
  | trans {d d' d'' : Disk} : Edits links d d' → Edits links d' d'' → Edits links d d''
  | makeDirs {d : Disk} (p : Path) : Edits links d (d.makeDirs p).2
  | erase {d : Disk} {p : Path} {place : Place} {n : Node} :
      d.find false p = .ok (.taken place n) → n ≠ .dir → Edits links d (d.erase place)
  | file {d : Disk} {p : Path} {s : Spot} (content : ByteArray) :
      d.find false p = .ok s → s.node? ≠ some .dir → Edits links d (d.put s.place (.file content))
  | link {d : Disk} {p : Path} {place : Place} (target : String) : links →
      d.find false p = .ok (.free place) → Edits links d (d.put place (.link target))
  | copy {d e : Disk} {p q : Path} {source place : Place} {n : Node} :
      d.find false q = .ok (.taken source n) → n ≠ .dir → Edits links d e →
      e.find false p = .ok (.free place) → Edits links d (e.put place n)

theorem clear?_edits {links : Prop} {d d' : Disk} {target : Path} (h : clear? d target = some d') :
    Edits links d d' := by
  unfold clear? at h
  split at h
  · split at h
    · simp at h
    · obtain rfl := Option.some.inj h
      exact .refl
  · next place n hdir hfind =>
    obtain rfl := Option.some.inj h
    exact .erase hfind hdir
  · obtain rfl := Option.some.inj h
    exact .refl

theorem replace_edits {links : Prop} {d d' : Disk} {target : Path} {content : ByteArray}
    (h : d.replace target content = (none, d')) : Edits links d d' := by
  unfold Disk.replace at h
  split at h
  · simp at h
  · next place n hdir hfind =>
    obtain ⟨-, rfl⟩ := Prod.mk.inj h
    exact .file content hfind fun hn => hdir (Option.some.inj hn)
  · next place hfind =>
    obtain ⟨-, rfl⟩ := Prod.mk.inj h
    exact .file content hfind (by simp [Spot.node?])
  · simp at h

theorem putEntry_edits {root : Place} {d d' : Disk} {target : Path} {kind : Kind}
    (h : putEntry root d target kind = some d') :
    Edits (∃ text, kind = .link text) d d' := by
  cases kind with
  | dir =>
      rw [putEntry] at h
      split at h
      · obtain rfl := Option.some.inj h
        exact .refl
      · split at h
        · next made hmade =>
          obtain rfl := Option.some.inj h
          have hdisk : (d.makeDirs target).2 = made := by rw [hmade]
          exact hdisk ▸ .makeDirs target
        · simp at h
  | file content =>
      simp only [putEntry, Option.bind_eq_bind, Option.bind_eq_some_iff] at h
      obtain ⟨cleared, hcleared, h⟩ := h
      refine (clear?_edits hcleared).trans ?_
      split at h
      · next made hmade =>
        obtain rfl := Option.some.inj h
        exact replace_edits hmade
      · simp at h
  | link text =>
      simp only [putEntry, Option.bind_eq_bind, Option.bind_eq_some_iff] at h
      obtain ⟨cleared, hcleared, h⟩ := h
      refine (clear?_edits hcleared).trans ?_
      split at h
      · next place hfind =>
        obtain rfl := Option.some.inj h
        exact .link text ⟨text, rfl⟩ hfind
      · simp at h
  | again text =>
      simp only [putEntry, Option.bind_eq_bind, Option.bind_eq_some_iff] at h
      obtain ⟨names, -, real, -, h⟩ := h
      split at h
      · simp at h
      · simp only [Option.bind_eq_some_iff] at h
        obtain ⟨cleared, hcleared, h⟩ := h
        split at h
        · simp at h
        · next source n place hdir hsource hfind =>
          obtain rfl := Option.some.inj h
          exact .copy hsource hdir (clear?_edits hcleared) hfind
        · simp at h

theorem unpackEntry_edits {root : Place} {d d' : Disk} {e : Entry}
    (h : unpackEntry root d e = some d') : Edits (∃ text, e.kind = .link text) d d' := by
  unfold unpackEntry at h
  split at h
  · obtain rfl := Option.some.inj h
    exact .refl
  · obtain rfl := Option.some.inj h
    exact .refl
  · next names _ =>
    dsimp only at h
    split at h
    · simp at h
    · simp only [Option.bind_eq_bind, Option.bind_eq_some_iff] at h
      obtain ⟨real, -, h⟩ := h
      split at h
      · simp at h
      · exact (Edits.makeDirs _).trans (putEntry_edits h)

theorem Edits.mono {links links' : Prop} (hlinks : links → links') {d d' : Disk}
    (h : Edits links d d') : Edits links' d d' := by
  induction h with
  | refl => exact .refl
  | trans _ _ ih ih' => exact ih.trans ih'
  | makeDirs p => exact .makeDirs p
  | erase hfind hn => exact .erase hfind hn
  | file content hfind hn => exact .file content hfind hn
  | link text hlink hfind => exact .link text (hlinks hlink) hfind
  | copy hsource hn _ hfind ih => exact .copy hsource hn ih hfind

/-! ## What comes of an archive -/

/-- A disk while an archive is unpacked: paths start at the root, and there are links only
if they may be made. -/
structure Sound (links : Prop) (d : Disk) : Prop where
  grounded : d.Grounded
  here : d.here = []
  linked : ∀ q text, d.node? q = some (.link text) → links

namespace Sound

variable {links : Prop} {d d' : Disk}

theorem find (h : Sound links d) {follow : Bool} {p : Path} {s : Spot}
    (hs : d.find follow p = .ok s) : s.Sits d :=
  h.grounded.find (by rw [h.here]; rfl) hs

theorem put (h : Sound links d) {q : Place} (hparent : d.node? q.dropLast = some .dir)
    (hq : d.node? q ≠ some .dir) {n : Node} (hn : ∀ text, n = .link text → links) :
    Sound links (d.put q n) := by
  have hroot : q ≠ [] := by
    rintro rfl
    exact hq rfl
  refine ⟨h.grounded.put hroot hparent fun hdir => absurd hdir hq, h.here, fun r text hr => ?_⟩
  rw [node?_put hroot] at hr
  split at hr
  · exact hn text (Option.some.inj hr)
  · exact h.linked r text hr

theorem edits (h : Sound links d) (hedits : Edits links d d') : Sound links d' := by
  induction hedits with
  | refl => exact h
  | trans _ _ ih ih' => exact ih' (ih h)
  | @makeDirs d p =>
      refine ⟨h.grounded.makeDirs (by rw [h.here]; rfl) p, (d.makeDirs_extends p).here.trans h.here,
        fun q text hq => ?_⟩
      rcases d.node?_makeDirs p q with hsame | ⟨-, hdir⟩
      · exact h.linked q text (hsame ▸ hq)
      · simp [hdir] at hq
  | @erase d p place n hfind hn =>
      have hplace : d.node? place ≠ some .dir :=
        (h.find hfind).not_dir fun hself => hn (Option.some.inj hself)
      refine ⟨h.grounded.erase hplace, h.here, fun q text hq => h.linked q text ?_⟩
      have hroot : place ≠ [] := by
        rintro rfl
        exact hplace rfl
      rw [node?_erase hroot] at hq
      split at hq
      · simp at hq
      · exact hq
  | file content hfind hn =>
      have hsits := h.find hfind
      exact h.put hsits.parent (hsits.not_dir hn) (by simp)
  | link text hlink hfind =>
      have hsits := h.find hfind
      exact h.put hsits.parent (hsits.not_dir (by simp [Spot.node?])) fun _ _ => hlink
  | @copy d e p q source place n hsource hn _ hfind ih =>
      have hsits := (ih h).find hfind
      refine (ih h).put hsits.parent (hsits.not_dir (by simp [Spot.node?])) fun text htext => ?_
      exact h.linked source text (htext ▸ (h.find hsource).node)

end Sound

theorem unpackEntries_edits {root : Place} {d d' : Disk} {entries : List Entry}
    (h : unpackEntries root d entries = some d') :
    Edits (∃ e ∈ entries, ∃ text, e.kind = .link text) d d' := by
  have hfold (todo : List Entry) (hsub : ∀ e ∈ todo, e ∈ entries) (d : Disk)
      (hrun : todo.foldlM (unpackEntry root) d = some d') :
      Edits (∃ e ∈ entries, ∃ text, e.kind = .link text) d d' := by
    induction todo generalizing d with
    | nil =>
        obtain rfl := Option.some.inj hrun
        exact .refl
    | cons e todo ih =>
        simp only [List.foldlM_cons, Option.bind_eq_bind, Option.bind_eq_some_iff] at hrun
        obtain ⟨next, hfirst, hrest⟩ := hrun
        refine .trans ?_ (ih (fun e he => hsub e (List.mem_cons_of_mem _ he)) next hrest)
        exact (unpackEntry_edits hfirst).mono fun hlink => ⟨e, hsub e List.mem_cons_self, hlink⟩
  refine hfold _ (fun e he => ?_) d h
  rcases List.mem_append.mp he with hmem | hmem
  · exact (List.mem_filter.mp hmem).1
  · exact (List.mem_filter.mp ((List.mergeSort_perm _ _).mem_iff.mp hmem)).1

theorem node?_bareDisk (root q : Place) :
    (bareDisk root).node? q = if q <+: root then some .dir else none := by
  have hnode (e : Place × Node) (he : e ∈ (bareDisk root).nodes) : e.1 <+: root ∧ e.2 = .dir := by
    obtain ⟨i, -, rfl⟩ := List.mem_map.mp he
    exact ⟨List.take_prefix _ _, rfl⟩
  unfold node?
  split
  · next hroot =>
    rw [hroot, if_pos List.nil_prefix]
  · next hroot =>
    split
    · next hq =>
      have hmem : (q, Node.dir) ∈ (bareDisk root).nodes := by
        refine List.mem_map.mpr ⟨q.length - 1, ?_, ?_⟩
        · have hlength := hq.length_le
          have hpos := List.length_pos_iff.mpr hroot
          exact List.mem_range.mpr (by omega)
        · rw [Nat.sub_add_cancel (List.length_pos_iff.mpr hroot), ← List.prefix_iff_eq_take.mp hq]
      cases hlookup : (bareDisk root).nodes.lookup q with
      | none => simpa using List.lookup_eq_none_iff.mp hlookup _ hmem
      | some n =>
          obtain ⟨l₁, l₂, hsplit, -⟩ := List.lookup_eq_some_iff.mp hlookup
          exact congrArg some (hnode (q, n) (hsplit ▸ by simp)).2
    · next hq =>
      refine List.lookup_eq_none_iff.mpr fun e he => ?_
      have hne : q ≠ e.1 := by
        rintro rfl
        exact hq (hnode e he).1
      simpa using hne

theorem sound_bareDisk (root : Place) (links : Prop) : Sound links (bareDisk root) := by
  refine ⟨fun q n hn => ?_, rfl, fun q text hq => ?_⟩
  · rw [node?_bareDisk] at hn ⊢
    split at hn
    · next hq =>
      rw [if_pos ((List.dropLast_prefix q).trans hq)]
    · simp at hn
  · rw [node?_bareDisk] at hq
    split at hq
    · simp at hq
    · simp at hq

/-- The entries of an archive. -/
def entriesOf (file : ByteArray) : List Entry :=
  let data := Inflate.gunzip file.data.toList
  (readEntries data.whole (data.bytes.size + 1) {} data.bytes.toList).getD []

theorem unpack_eq_some {root : Place} {file : ByteArray} {nodes : List (Place × Node)}
    (h : unpack root file = some nodes) :
    ∃ d, Sound (∃ e ∈ entriesOf file, ∃ text, e.kind = .link text) d ∧
      ∀ q, root <+: q → q ≠ root → nodes.lookup q = d.node? q := by
  unfold unpack at h
  simp only [Option.bind_eq_bind, Option.bind_eq_some_iff] at h
  obtain ⟨entries, hentries, d, hd, hnodes⟩ := h
  obtain rfl := Option.some.inj hnodes
  have hsame : entriesOf file = entries := by
    unfold entriesOf
    dsimp only
    rw [hentries, Option.getD_some]
  refine ⟨d, hsame ▸ (sound_bareDisk root _).edits (unpackEntries_edits hd), fun q hq hne => ?_⟩
  have hroot : q ≠ [] := by
    rintro rfl
    exact hne (List.prefix_nil.mp hq).symm
  rw [lookup_filter_key fun r => root.isPrefixOf r && r != root, if_pos (by simpa using ⟨hq, hne⟩),
    node?, if_neg hroot]

/-- An archive has no link at its top if none of its entries is one. -/
theorem linkFree_of_entries {file : ByteArray}
    (h : ∀ e ∈ entriesOf file, ∀ text, e.kind ≠ .link text) : Packages.LinkFree file := by
  intro root nodes hnodes name target hlookup
  obtain ⟨d, hsound, hlookups⟩ := unpack_eq_some hnodes
  rw [hlookups _ (List.prefix_append _ _) (by simp)] at hlookup
  obtain ⟨e, he, text, htext⟩ := hsound.linked _ _ hlookup
  exact h e he text htext

/-- Nothing comes of an archive below a place where it puts anything but a directory. -/
theorem lookup_below {root : Place} {file : ByteArray} {nodes : List (Place × Node)}
    (h : unpack root file = some nodes) {q rest : Place} (hq : root <+: q) (hne : q ≠ root)
    (hdir : nodes.lookup q ≠ some .dir) (hrest : rest ≠ []) : nodes.lookup (q ++ rest) = none := by
  obtain ⟨d, hsound, hlookups⟩ := unpack_eq_some h
  have hbelow : q ++ rest ≠ root := by
    rintro hself
    have hlength := hq.length_le
    rw [← hself, List.length_append] at hlength
    exact hrest (List.length_eq_zero_iff.mp (by omega))
  rw [hlookups q hq hne] at hdir
  rw [hlookups _ (hq.trans (List.prefix_append _ _)) hbelow]
  cases hn : d.node? (q ++ rest) with
  | none => rfl
  | some n => exact absurd (hsound.grounded.below hrest hn) hdir

end Tar

end PartDepot
