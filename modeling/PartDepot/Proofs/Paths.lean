import PartDepot.Disk.Basic

/-!
# Names along a path

Which names a walk along a path goes through, what a name that is joined to the path adds to them,
and what the path above it leaves of them.
-/

namespace PartDepot.Path

/-- The names along a path. Unlike the steps they do not tell whether a directory is asked for. -/
def names (p : Path) : List String := (p.pieces.filter (!·.isEmpty)).map String.ofList

/-- A text that is one piece of a path. -/
structure IsPiece (name : String) : Prop where
  nonempty : name.toList ≠ []
  whole : '/' ∉ name.toList

theorem splitSlashes_ne_nil (cs : List Char) : splitSlashes cs ≠ [] := by
  cases cs with
  | nil => simp [splitSlashes]
  | cons c cs =>
      unfold splitSlashes
      split
      · simp
      · split <;> simp

theorem splitSlashes_cons {c : Char} {cs p : List Char} {ps : List (List Char)}
    (h : splitSlashes cs = p :: ps) :
    splitSlashes (c :: cs) = if c = '/' then [] :: p :: ps else (c :: p) :: ps := by
  simp [splitSlashes, h]

theorem splitSlashes_whole {name : List Char} (h : '/' ∉ name) : splitSlashes name = [name] := by
  induction name with
  | nil => rfl
  | cons c name ih =>
      obtain ⟨hc, hname⟩ := List.ne_and_not_mem_of_not_mem_cons h
      rw [splitSlashes_cons (ih hname), if_neg (Ne.symm hc)]

theorem splitSlashes_append {name : List Char} (h : '/' ∉ name) (cs : List Char) :
    splitSlashes (cs ++ '/' :: name) = splitSlashes cs ++ [name] := by
  induction cs with
  | nil => rw [List.nil_append, splitSlashes_cons (splitSlashes_whole h), if_pos rfl]; rfl
  | cons c cs ih =>
      obtain ⟨p, ps, hcs⟩ := List.exists_cons_of_ne_nil (splitSlashes_ne_nil cs)
      rw [hcs] at ih
      rw [List.cons_append, splitSlashes_cons ih, splitSlashes_cons hcs]
      split <;> rfl

theorem joinSlashes_splitSlashes (cs : List Char) : joinSlashes (splitSlashes cs) = cs := by
  induction cs with
  | nil => rfl
  | cons c cs ih =>
      obtain ⟨p, ps, hcs⟩ := List.exists_cons_of_ne_nil (splitSlashes_ne_nil cs)
      rw [hcs] at ih
      rw [splitSlashes_cons hcs]
      split
      · next hc =>
        rw [joinSlashes, ih, hc, List.nil_append]
        simp
      · cases ps with
        | nil => rw [← ih]; rfl
        | cons q qs => rw [← ih]; rfl

theorem IsPiece.head_ne_slash {name : String} (h : IsPiece name) :
    (name.toList.head? == some '/') = false := by
  cases hname : name.toList with
  | nil => rfl
  | cons c rest =>
      have hc : c ≠ '/' := by
        rintro rfl
        exact h.whole (by simp [hname])
      simpa using hc

/-! ## Joining -/

/-- A joined name stands behind the path, with a slash between them where one is needed. -/
theorem join_toList {name : String} (h : IsPiece name) (p : Path) :
    (p.join name).text.toList = name.toList ∧ p.text = "" ∨
      ∃ front, (p.join name).text.toList = front ++ '/' :: name.toList ∧
        (p.text.toList = front ∨ p.text.toList = front ++ ['/']) ∧ p.text ≠ "" := by
  unfold join
  rw [if_neg (by simp [h.head_ne_slash])]
  by_cases hempty : p.text = ""
  · left
    simp [hempty]
  · right
    have hne : p.text.isEmpty = false := by simpa using hempty
    by_cases hslash : p.text.toList.getLast? = some '/'
    · obtain ⟨front, hfront⟩ := List.getLast?_eq_some_iff.mp hslash
      refine ⟨front, ?_, .inr hfront, hempty⟩
      simp [hfront]
    · refine ⟨p.text.toList, ?_, .inl rfl, hempty⟩
      simp [hslash, hne]

theorem join_text (p : Path) :
    ∃ front : String, ∀ {name : String}, IsPiece name → (p.join name).text = front ++ name := by
  refine ⟨if p.text.isEmpty || p.text.toList.getLast? == some '/' then p.text else p.text ++ "/",
    fun {name} h => ?_⟩
  unfold join
  rw [if_neg (by simp [h.head_ne_slash])]
  split <;> rfl

theorem names_join {name : String} (h : IsPiece name) (p : Path) :
    (p.join name).names = p.names ++ [name] := by
  have hname : name.toList.isEmpty = false := by simpa using h.nonempty
  unfold names pieces
  rcases join_toList h p with ⟨htext, hp⟩ | ⟨front, htext, hfront | hfront, -⟩
  · rw [htext, hp, splitSlashes_whole h.whole]
    simp [splitSlashes, hname]
  · rw [htext, hfront, splitSlashes_append h.whole]
    simp [hname]
  · rw [htext, hfront, splitSlashes_append h.whole, splitSlashes_append (by simp)]
    simp [hname]

theorem steps_join {name : String} (h : IsPiece name) (p : Path) :
    (p.join name).steps = p.names ++ [name] := by
  have hlast : (p.join name).text.toList.getLast? ≠ some '/' := by
    intro hslash
    have hmem : name.toList.getLast? = some '/' := by
      rcases join_toList h p with ⟨htext, -⟩ | ⟨front, htext, -⟩
      · rwa [htext] at hslash
      · rw [htext, List.getLast?_append] at hslash
        obtain ⟨c, rest, hname⟩ := List.exists_cons_of_ne_nil h.nonempty
        simpa [hname] using hslash
    exact h.whole (List.mem_of_getLast? hmem)
  rw [← names_join h]
  unfold steps names
  simp [hlast]

theorem steps_eq (p : Path) : p.steps = p.names ∨ p.steps = p.names ++ ["."] := by
  unfold steps names
  dsimp only
  split
  · exact .inr rfl
  · exact .inl rfl

theorem isAbsolute_join {name : String} (h : IsPiece name) (p : Path) :
    (p.join name).isAbsolute = p.isAbsolute := by
  unfold isAbsolute
  rcases join_toList h p with ⟨htext, hp⟩ | ⟨front, htext, hfront | hfront, hp⟩
  · rw [htext, hp]
    obtain ⟨c, rest, hname⟩ := List.exists_cons_of_ne_nil h.nonempty
    have hc : c ≠ '/' := by
      rintro rfl
      exact h.whole (by simp [hname])
    simp [hname, hc]
  · rw [htext, hfront]
    cases front with
    | nil => exact absurd (by simpa using hfront) hp
    | cons c rest => rfl
  · rw [htext, hfront]
    cases front <;> rfl

/-- The pieces of a joined path: those of the path, less an empty one at its end, and the name. -/
theorem pieces_join {name : String} (h : IsPiece name) (p : Path) :
    ∃ front, (p.join name).pieces = front ++ [name.toList] := by
  unfold pieces
  rcases join_toList h p with ⟨htext, -⟩ | ⟨front, htext, -, -⟩
  · exact ⟨[], by rw [htext, splitSlashes_whole h.whole]; rfl⟩
  · exact ⟨splitSlashes front, by rw [htext, splitSlashes_append h.whole]⟩

theorem parent?_join {q : Path} {front : List (List Char)} {last : List Char} {name : String}
    (hq : q.pieces = front ++ [last]) (hlast : last ≠ []) (hdot : last ≠ ['.'])
    (h : IsPiece name) (hname : name.toList ≠ ['.']) : (q.join name).parent? = some q := by
  have htext : (q.join name).text.toList = q.text.toList ++ '/' :: name.toList := by
    rcases join_toList h q with ⟨-, hempty⟩ | ⟨cs, hcs, hwhole | hslash, -⟩
    · have hnil : q.pieces = [[]] := by
        unfold pieces
        rw [hempty]
        rfl
      rw [hnil] at hq
      have hlen := congrArg List.length hq
      cases front with
      | nil => simp [Ne.symm hlast] at hq
      | cons first front => simp at hlen
    · rw [hcs, hwhole]
    · unfold pieces at hq
      rw [hslash, splitSlashes_append (by simp)] at hq
      obtain ⟨-, hend⟩ := List.append_inj' hq rfl
      exact absurd (List.singleton_inj.mp hend).symm hlast
  have hpieces : (q.join name).pieces.reverse = name.toList :: last :: front.reverse := by
    unfold pieces at hq ⊢
    rw [htext, splitSlashes_append h.whole, hq]
    simp
  have hback : joinSlashes (last :: front.reverse).reverse = q.text.toList := by
    have hsplit := joinSlashes_splitSlashes q.text.toList
    unfold pieces at hq
    rw [hq] at hsplit
    simpa using hsplit
  have hlastPart : isPart front.reverse.isEmpty last = true := by simp [isPart, hlast, hdot]
  have hnamePart : isPart false name.toList = true := by simp [isPart, h.nonempty, hname]
  unfold parent?
  rw [hpieces]
  simp only [dropIdle, List.isEmpty_cons, hnamePart, hlastPart, if_true, hback]
  simp

/-! ## Paths below others -/

/-- A path leads from another one further along some names. -/
structure Under (root : Path) (more : List String) (q : Path) : Prop where
  names : q.names = root.names ++ more
  steps : q.steps = q.names
  isAbsolute : q.isAbsolute = root.isAbsolute

theorem under_join {name : String} (h : IsPiece name) (root : Path) :
    Under root [name] (root.join name) := by
  refine ⟨names_join h root, ?_, isAbsolute_join h root⟩
  rw [steps_join h, names_join h]

theorem Under.join {root q : Path} {more : List String} (hq : Under root more q) {name : String}
    (h : IsPiece name) : Under root (more ++ [name]) (q.join name) := by
  refine ⟨?_, ?_, ?_⟩
  · rw [names_join h, hq.names, List.append_assoc]
  · rw [steps_join h, names_join h]
  · rw [isAbsolute_join h, hq.isAbsolute]

/-! ## Paths above others -/

theorem not_slash_of_mem_splitSlashes {cs piece : List Char} (h : piece ∈ splitSlashes cs) :
    '/' ∉ piece := by
  induction cs generalizing piece with
  | nil =>
      obtain rfl := List.mem_singleton.mp h
      simp
  | cons c cs ih =>
      obtain ⟨p, ps, hcs⟩ := List.exists_cons_of_ne_nil (splitSlashes_ne_nil cs)
      rw [splitSlashes_cons hcs] at h
      rw [hcs] at ih
      split at h
      · rcases List.mem_cons.mp h with rfl | hmem
        · simp
        · exact ih hmem
      · next hc =>
        rcases List.mem_cons.mp h with rfl | hmem
        · intro hslash
          rcases List.mem_cons.mp hslash with hfirst | hlater
          · exact hc hfirst.symm
          · exact ih List.mem_cons_self hlater
        · exact ih (List.mem_cons_of_mem _ hmem)

theorem splitSlashes_prepend {piece : List Char} (h : '/' ∉ piece) (cs : List Char) :
    splitSlashes (piece ++ '/' :: cs) = piece :: splitSlashes cs := by
  induction piece with
  | nil =>
      obtain ⟨p, ps, hcs⟩ := List.exists_cons_of_ne_nil (splitSlashes_ne_nil cs)
      rw [List.nil_append, splitSlashes_cons hcs, if_pos rfl, hcs]
  | cons c piece ih =>
      obtain ⟨hc, hpiece⟩ := List.ne_and_not_mem_of_not_mem_cons h
      rw [List.cons_append, splitSlashes_cons (ih hpiece), if_neg (Ne.symm hc)]

theorem splitSlashes_joinSlashes {pieces : List (List Char)} (hne : pieces ≠ [])
    (h : ∀ piece ∈ pieces, '/' ∉ piece) : splitSlashes (joinSlashes pieces) = pieces := by
  induction pieces with
  | nil => exact absurd rfl hne
  | cons first rest ih =>
      cases rest with
      | nil => exact splitSlashes_whole (h first List.mem_cons_self)
      | cons next rest =>
          rw [joinSlashes, splitSlashes_prepend (h first List.mem_cons_self),
            ih (by simp) fun piece hmem => h piece (List.mem_cons_of_mem _ hmem)]
          simp

theorem dropIdle_suffix (pieces : List (List Char)) : dropIdle pieces <:+ pieces := by
  induction pieces with
  | nil => exact List.suffix_refl []
  | cons first rest ih =>
      unfold dropIdle
      split
      · exact List.suffix_refl _
      · exact ih.trans (List.suffix_cons first rest)

theorem ne_nil_of_dropIdle {pieces rest : List (List Char)} {last : List Char}
    (h : dropIdle pieces = last :: rest) : last ≠ [] := by
  induction pieces with
  | nil => simp [dropIdle] at h
  | cons first others ih =>
      unfold dropIdle at h
      split at h
      · next hpart =>
        obtain ⟨rfl, -⟩ := List.cons.inj h
        rintro rfl
        simp [isPart] at hpart
      · exact ih h

theorem idle_of_dropIdle {pieces : List (List Char)} (h : dropIdle pieces = []) :
    ∀ piece ∈ pieces, piece = [] ∨ piece = ['.'] := by
  induction pieces with
  | nil => simp
  | cons first rest ih =>
      unfold dropIdle at h
      split at h
      · simp at h
      · next hpart =>
        intro piece hmem
        rcases List.mem_cons.mp hmem with rfl | hmem
        · by_cases hempty : piece = []
          · exact .inl hempty
          · have hdot : piece = ['.'] ∧ ¬rest = [] := by simpa [isPart, hempty] using hpart
            exact .inr hdot.1
        · exact ih h piece hmem

/-- An absolute path is one whose first piece is empty, and not the only one. -/
theorem isAbsolute_iff {p : Path} :
    p.isAbsolute = true ↔ ∃ rest, rest ≠ [] ∧ p.pieces = [] :: rest := by
  unfold isAbsolute pieces
  cases p.text.toList with
  | nil => simp [splitSlashes]
  | cons c cs =>
      obtain ⟨first, rest, hcs⟩ := List.exists_cons_of_ne_nil (splitSlashes_ne_nil cs)
      rw [splitSlashes_cons hcs]
      by_cases hc : c = '/'
      · simp [hc]
      · simp [hc]

theorem isAbsolute_of_prefix {p q : Path} (h : q.pieces <+: p.pieces) (hq : q.pieces ≠ [[]]) :
    q.isAbsolute = p.isAbsolute := by
  obtain ⟨tail, htail⟩ := h
  rw [Bool.eq_iff_iff, isAbsolute_iff, isAbsolute_iff, ← htail]
  cases hfirst : q.pieces with
  | nil => exact absurd hfirst (splitSlashes_ne_nil _)
  | cons first rest =>
      constructor
      · rintro ⟨others, hne, hpath⟩
        obtain ⟨rfl, rfl⟩ := List.cons.inj hpath
        exact ⟨rest ++ tail, by simp [hne], rfl⟩
      · rintro ⟨others, -, hpath⟩
        obtain ⟨rfl, -⟩ := List.cons.inj hpath
        refine ⟨rest, ?_, rfl⟩
        rintro rfl
        exact hq hfirst

/-- Above a path stand the pieces before its last part, or where it starts if there are none. -/
theorem parent?_inv {p q : Path} (h : p.parent? = some q) :
    ∃ last before, dropIdle p.pieces.reverse = last :: before ∧
      (dropIdle before = [] ∧ q = ⟨if p.isAbsolute then "/" else ""⟩ ∨
        dropIdle before ≠ [] ∧ q.pieces.reverse = dropIdle before) := by
  unfold parent? at h
  cases hlast : dropIdle p.pieces.reverse with
  | nil => simp [hlast] at h
  | cons last before =>
      rw [hlast] at h
      dsimp only at h
      refine ⟨last, before, rfl, ?_⟩
      cases hkept : dropIdle before with
      | nil =>
          rw [hkept] at h
          exact .inl ⟨rfl, (Option.some.inj h).symm⟩
      | cons final others =>
          rw [hkept] at h
          obtain rfl := Option.some.inj h
          have hsuffix : final :: others <:+ p.pieces.reverse := by
            rw [← hkept]
            apply (dropIdle_suffix before).trans
            apply (List.suffix_cons last before).trans
            exact hlast ▸ dropIdle_suffix _
          refine .inr ⟨by simp, ?_⟩
          unfold pieces
          rw [String.toList_ofList, splitSlashes_joinSlashes (by simp) fun piece hmem => ?_,
            List.reverse_reverse]
          exact not_slash_of_mem_splitSlashes
            (List.mem_reverse.mp (hsuffix.subset (List.mem_reverse.mp hmem)))

/-- Above a path stands where it starts, or the path of its first pieces. -/
theorem parent?_cases {p q : Path} (h : p.parent? = some q) :
    q = ⟨if p.isAbsolute then "/" else ""⟩ ∨ (q.pieces <+: p.pieces ∧ q.pieces ≠ [[]]) := by
  obtain ⟨last, before, hlast, ⟨-, hq⟩ | ⟨hkept, hq⟩⟩ := parent?_inv h
  · exact .inl hq
  · have hsuffix : q.pieces.reverse <:+ p.pieces.reverse := by
      rw [hq]
      apply (dropIdle_suffix before).trans
      apply (List.suffix_cons last before).trans
      exact hlast ▸ dropIdle_suffix _
    refine .inr ⟨List.reverse_suffix.mp hsuffix, fun hsingle => ?_⟩
    rw [hsingle, List.reverse_singleton] at hq
    exact ne_nil_of_dropIdle hq.symm rfl

/-- The names along a path that say more than a dot does. -/
def way (p : Path) : List String := p.names.filter (· ≠ ".")

theorem parent?_way {p q : Path} (h : p.parent? = some q) :
    q.way <+: p.way ∧ q.isAbsolute = p.isAbsolute := by
  rcases parent?_cases h with rfl | ⟨hfront, hne⟩
  · cases hp : p.isAbsolute with
    | false =>
        rw [if_neg (by simp)]
        have hnone : (Path.mk "").way = [] := by decide
        exact ⟨hnone ▸ List.nil_prefix, by decide⟩
    | true =>
        rw [if_pos rfl]
        have hnone : (Path.mk "/").way = [] := by decide
        exact ⟨hnone ▸ List.nil_prefix, by decide⟩
  · refine ⟨?_, isAbsolute_of_prefix hfront hne⟩
    unfold way names
    exact ((hfront.filter _).map _).filter _

theorem way_of_no_parent {p : Path} (h : p.parent? = none) : p.way = [] := by
  have hidle : dropIdle p.pieces.reverse = [] := by
    unfold parent? at h
    split at h
    · next hnil => exact hnil
    · split at h <;> simp at h
  unfold way names
  rw [List.filter_eq_nil_iff]
  intro name hname
  obtain ⟨piece, hpiece, rfl⟩ := List.mem_map.mp hname
  obtain ⟨hmem, hne⟩ := List.mem_filter.mp hpiece
  rcases idle_of_dropIdle hidle piece (by simpa using hmem) with rfl | rfl
  · simp at hne
  · simp

/-- The parts of a joined path, last first: the name is one of them. -/
theorem dropIdle_join {name : String} (h : IsPiece name) (hdot : name ≠ ".") (p : Path) : ∃ front,
    (p.join name).pieces = front ++ [name.toList] ∧
      dropIdle (p.join name).pieces.reverse = name.toList :: front.reverse := by
  obtain ⟨front, hpieces⟩ := pieces_join h p
  have hself : name.toList ≠ ['.'] := fun hself => hdot (String.toList_injective hself)
  have hpart : isPart front.reverse.isEmpty name.toList = true := by
    simp [isPart, h.nonempty, hself]
  refine ⟨front, hpieces, ?_⟩
  rw [hpieces, List.reverse_append, List.reverse_singleton, List.singleton_append, dropIdle,
    if_pos hpart]

/-- Above a joined path stand the first names of the path it was joined to. -/
theorem names_of_parent?_join {p q : Path} {name : String} (h : IsPiece name) (hdot : name ≠ ".")
    (hq : (p.join name).parent? = some q) :
    q.names <+: p.names ∧ q.isAbsolute = p.isAbsolute := by
  refine ⟨?_, (parent?_way hq).2.trans (isAbsolute_join h p)⟩
  obtain ⟨front, hpieces, hparts⟩ := dropIdle_join h hdot p
  have hnames : p.names = (front.filter (!·.isEmpty)).map String.ofList := by
    have hjoin := names_join h p
    have hne : name.toList.isEmpty = false := by simpa using h.nonempty
    unfold names at hjoin ⊢
    rw [hpieces, List.filter_append, List.map_append] at hjoin
    refine (List.append_inj_left' hjoin ?_).symm
    simp [hne]
  obtain ⟨last, before, hlast, hroot | ⟨-, hkept⟩⟩ := parent?_inv hq
  · rw [hroot.2]
    cases (p.join name).isAbsolute <;> exact List.nil_prefix
  · obtain ⟨-, rfl⟩ := List.cons.inj (hparts.symm.trans hlast)
    have hfront : q.pieces <+: front := by
      rw [← List.reverse_suffix, hkept]
      exact dropIdle_suffix _
    rw [hnames, names]
    exact (hfront.filter _).map _

end PartDepot.Path
