import PartDepot.Proofs.Addresses
import PartDepot.Proofs.Escapes
import PartDepot.Url.Basic

/-!
# The path of a URL

A path is its segments, each behind a slash.  Reading resolves the dot segments and encodes the
others; a path that was read this way is read again as it is.  More segments go behind the last one
that is not empty, and each of them stays one segment.
-/

namespace PartDepot.Url

/-! ## Segments -/

/-- Segments as a path. -/
def joined (segments : List (List Char)) : List Char := segments.flatMap ('/' :: ·)

@[simp] theorem joined_nil : joined [] = [] := rfl

@[simp] theorem joined_cons (s : List Char) (rest : List (List Char)) :
    joined (s :: rest) = '/' :: (s ++ joined rest) := rfl

@[simp] theorem joined_append (front back : List (List Char)) :
    joined (front ++ back) = joined front ++ joined back := List.flatMap_append

/-- A segment as it stands in a path. -/
structure IsPlain (s : List Char) : Prop where
  chars : ∀ c ∈ s, Percent.Plain Percent.path c
  slash : '/' ∉ s
  backslash : '\\' ∉ s
  dots : dots s = 0

theorem isPlain_nil : IsPlain [] := ⟨by simp, by simp, by simp, rfl⟩

theorem splitPath_eq (s : List Char) :
    splitPath true s = s.splitOnP fun c => c == '/' || c == '\\' := by
  rw [@Host.eq_splitOnP (splitPath true) (fun c => (c = '/' || (true && c = '\\')) = true) _ rfl
    (fun _ _ => rfl) s]
  congr 1
  funext c
  rw [Bool.eq_iff_iff]
  simp

theorem not_mem_splitPath {s piece : List Char} (h : piece ∈ splitPath true s) :
    '/' ∉ piece ∧ '\\' ∉ piece := by
  rw [splitPath_eq] at h
  exact ⟨fun hc => absurd (Host.mem_splitOnP h hc).2 (by decide),
    fun hc => absurd (Host.mem_splitOnP h hc).2 (by decide)⟩

theorem splitOnP_joined {sep : Char → Bool} (hslash : sep '/' = true) {s : List Char}
    {rest : List (List Char)} (h : ∀ piece ∈ s :: rest, ∀ c ∈ piece, sep c = false) :
    (s ++ joined rest).splitOnP sep = s :: rest := by
  induction rest generalizing s with
  | nil =>
      rw [joined_nil, List.append_nil]
      exact List.splitOnP_eq_singleton (h s List.mem_cons_self)
  | cons t rest ih =>
      rw [joined_cons, List.splitOnP_append_cons_of_forall_mem (h s List.mem_cons_self) _ hslash,
        ih fun piece hp => h piece (List.mem_cons_of_mem s hp)]

theorem splitPath_joined {s : List Char} {rest : List (List Char)}
    (h : ∀ piece ∈ s :: rest, IsPlain piece) : splitPath true (s ++ joined rest) = s :: rest := by
  rw [splitPath_eq]
  refine splitOnP_joined (by decide) fun piece hp c hc => ?_
  simp only [Bool.or_eq_false_iff, beq_eq_false_iff_ne]
  exact ⟨fun heq => (h piece hp).slash (heq ▸ hc), fun heq => (h piece hp).backslash (heq ▸ hc)⟩

theorem joined_injective {segments segments' : List (List Char)} (h : ∀ s ∈ segments, '/' ∉ s)
    (h' : ∀ s ∈ segments', '/' ∉ s) (heq : joined segments = joined segments') :
    segments = segments' := by
  have hsep {pieces : List (List Char)} (hp : ∀ s ∈ pieces, '/' ∉ s) :
      ∀ s ∈ pieces, ∀ c ∈ s, (c == '/') = false := fun s hs c hc => by
    rw [beq_eq_false_iff_ne]
    rintro rfl
    exact hp s hs hc
  match segments, segments' with
  | [], [] => rfl
  | [], s :: rest => simp at heq
  | s :: rest, [] => simp at heq
  | s :: rest, s' :: rest' =>
    rw [joined_cons, joined_cons] at heq
    rw [← splitOnP_joined rfl (hsep h), ← splitOnP_joined rfl (hsep h'),
      List.tail_eq_of_cons_eq heq]

/-! ## Dot segments -/

theorem dots_cases (s : List Char) : dots s = 0 ∨ dots s = 1 ∨ dots s = 2 := by
  unfold dots
  dsimp only
  split
  · exact .inr (.inl rfl)
  · split
    · exact .inr (.inr rfl)
    · exact .inl rfl

theorem leaveSegment_joined {done : List (List Char)} (h : ∀ s ∈ done, '/' ∉ s) :
    leaveSegment (joined done ++ ['/']) = joined done.dropLast ++ ['/'] := by
  rcases done.eq_nil_or_concat' with rfl | ⟨front, s, rfl⟩
  · rfl
  · have hs : ∀ c ∈ s.reverse, (c != '/') = true := fun c hc => by
      have hslash := h s (by simp)
      simp only [bne_iff_ne]
      rintro rfl
      exact hslash (List.mem_reverse.mp hc)
    have hlen : 1 < (joined (front ++ [s]) ++ ['/']).length := by
      simp
      omega
    unfold leaveSegment upToSlash
    rw [if_pos hlen, List.dropLast_concat, List.dropLast_concat]
    simp [List.dropWhile_append_of_pos hs]

/-- The segments that are left of those before and one more. -/
def walk (done : List (List Char)) (segment : List Char) : List (List Char) :=
  match dots (Percent.encode Percent.path segment) with
  | 1 => done
  | 2 => done.dropLast
  | _ => done ++ [Percent.encode Percent.path segment]

/-- The same for the last segment. A dot segment leaves an empty one. -/
def arrive (done : List (List Char)) (last : List Char) : List (List Char) :=
  if dots (Percent.encode Percent.path last) = 0 then walk done last else walk done last ++ [[]]

/-- A raw segment. -/
def IsWhole (s : List Char) : Prop := '/' ∉ s ∧ '\\' ∉ s

theorem isPlain_encode {s : List Char} (h : IsWhole s)
    (hdots : dots (Percent.encode Percent.path s) = 0) :
    IsPlain (Percent.encode Percent.path s) := by
  refine ⟨fun c hc => ?_, fun hc => ?_, fun hc => ?_, hdots⟩
  · rcases Percent.mem_encode hc with ⟨-, hplain⟩ | hescape
    · exact hplain
    · exact hescape.plain Percent.spares_path
  · rcases Percent.mem_encode hc with ⟨hmem, -⟩ | hescape
    · exact h.1 hmem
    · exact absurd hescape (by decide)
  · rcases Percent.mem_encode hc with ⟨hmem, -⟩ | hescape
    · exact h.2 hmem
    · exact absurd hescape (by decide)

section Walk

variable {done front : List (List Char)} {s : List Char}

theorem walk_plain (hdone : ∀ t ∈ done, IsPlain t) (hs : IsWhole s) :
    ∀ t ∈ walk done s, IsPlain t := by
  unfold walk
  split
  · exact hdone
  · exact fun t ht => hdone t (List.dropLast_subset done ht)
  · next h₁ h₂ =>
    intro t ht
    rcases List.mem_append.mp ht with hmem | hmem
    · exact hdone t hmem
    · obtain rfl := List.mem_singleton.mp hmem
      rcases dots_cases (Percent.encode Percent.path s) with h | h | h
      · exact isPlain_encode hs h
      · exact absurd h h₁
      · exact absurd h h₂

theorem foldl_walk_plain (hdone : ∀ t ∈ done, IsPlain t) (hfront : ∀ t ∈ front, IsWhole t) :
    ∀ t ∈ front.foldl walk done, IsPlain t := by
  induction front generalizing done with
  | nil => exact hdone
  | cons s front ih =>
      exact ih (walk_plain hdone (hfront s List.mem_cons_self))
        fun t ht => hfront t (List.mem_cons_of_mem s ht)

theorem arrive_plain (hdone : ∀ t ∈ done, IsPlain t) (hs : IsWhole s) :
    ∀ t ∈ arrive done s, IsPlain t := by
  have hwalk := walk_plain hdone hs
  unfold arrive
  split
  · exact hwalk
  · intro t ht
    rcases List.mem_append.mp ht with hmem | hmem
    · exact hwalk t hmem
    · obtain rfl := List.mem_singleton.mp hmem
      exact isPlain_nil

theorem arrive_ne_nil (done : List (List Char)) (s : List Char) : arrive done s ≠ [] := by
  unfold arrive
  split
  · next h => simp [walk, h]
  · simp

theorem walk_of_plain (hs : IsPlain s) : walk done s = done ++ [s] := by
  have hencode : Percent.encode Percent.path s = s := Percent.encode_of_plain hs.chars
  simp [walk, hencode, hs.dots]

theorem arrive_of_plain (hs : IsPlain s) : arrive done s = done ++ [s] := by
  have hencode : Percent.encode Percent.path s = s := Percent.encode_of_plain hs.chars
  rw [arrive, hencode, if_pos hs.dots, walk_of_plain hs]

theorem foldl_walk_of_plain (hfront : ∀ t ∈ front, IsPlain t) :
    front.foldl walk done = done ++ front := by
  induction front generalizing done with
  | nil => simp
  | cons s front ih =>
      rw [List.foldl_cons, walk_of_plain (hfront s List.mem_cons_self),
        ih fun t ht => hfront t (List.mem_cons_of_mem s ht)]
      simp

/-- A slash behind a path leaves it as it is or adds one. -/
theorem joined_arrive_nil (done : List (List Char)) (s : List Char) :
    joined (arrive (walk done s) []) = joined (arrive done s) ∨
      joined (arrive (walk done s) []) = joined (arrive done s) ++ ['/'] := by
  rw [arrive_of_plain isPlain_nil]
  unfold arrive
  split
  · exact .inr (by simp)
  · exact .inl rfl

theorem addSegment_joined (hdone : ∀ t ∈ done, '/' ∉ t) (s : List Char) :
    addSegment (joined done ++ ['/']) (Percent.encode Percent.path s) = joined (arrive done s) := by
  unfold addSegment arrive walk
  rcases dots_cases (Percent.encode Percent.path s) with h | h | h
  · simp [h]
  · simp [h]
  · simp [h, leaveSegment_joined hdone]

theorem go_cons {t : List Char} (hdone : ∀ t ∈ done, '/' ∉ t) {rest : List (List Char)}
    (hrest : rest ≠ []) :
    pathOf.go (joined done ++ ['/']) (t :: rest) =
      pathOf.go (joined (walk done t) ++ ['/']) rest := by
  rw [pathOf.go, addSegment_joined hdone]
  · congr 1
    unfold arrive withSlash
    split
    · rfl
    · simp
  · exact hrest

theorem go_joined (hdone : ∀ t ∈ done, IsPlain t) (hfront : ∀ t ∈ front, IsWhole t)
    (s : List Char) :
    pathOf.go (joined done ++ ['/']) (front ++ [s]) =
      joined (arrive (front.foldl walk done) s) := by
  induction front generalizing done with
  | nil => exact addSegment_joined (fun t ht => (hdone t ht).slash) s
  | cons t front ih =>
      rw [List.cons_append, go_cons (fun t ht => (hdone t ht).slash) (by simp)]
      exact ih (walk_plain hdone (hfront t List.mem_cons_self))
        fun u hu => hfront u (List.mem_cons_of_mem t hu)

end Walk

/-! ## Reading -/

/-- The path in front of the query, as it is read behind the authority. -/
def readPath : List Char → List Char
  | [] => ['/']
  | _ :: segments => pathOf (splitPath true segments)

/-- The segments of a text, with the last one on its own. -/
theorem splitPath_concat (s : List Char) :
    ∃ front last, splitPath true s = front ++ [last] ∧ ∀ t ∈ front ++ [last], IsWhole t := by
  have hne : splitPath true s ≠ [] := by
    rw [splitPath_eq]
    exact List.splitOnP_ne_nil _ s
  obtain hnil | ⟨front, last, hsplit⟩ := (splitPath true s).eq_nil_or_concat'
  · exact absurd hnil hne
  · exact ⟨front, last, hsplit, fun t ht => not_mem_splitPath (hsplit ▸ ht)⟩

theorem pathOf_concat {front : List (List Char)} (hfront : ∀ t ∈ front, IsWhole t)
    (last : List Char) :
    pathOf (front ++ [last]) = joined (arrive (front.foldl walk []) last) :=
  @go_joined [] front (by simp) hfront last

/-- A path as it is kept: plain segments, at least one. -/
def IsPath (path : List Char) : Prop :=
  ∃ segments, segments ≠ [] ∧ (∀ s ∈ segments, IsPlain s) ∧ path = joined segments

theorem isPath_readPath (s : List Char) : IsPath (readPath s) := by
  cases s with
  | nil => exact ⟨[[]], by simp, by simp [isPlain_nil], rfl⟩
  | cons c s =>
      obtain ⟨front, last, hsplit, hwhole⟩ := splitPath_concat s
      have hfront : ∀ t ∈ front, IsWhole t := fun t ht => hwhole t (List.mem_append_left _ ht)
      refine ⟨arrive (front.foldl walk []) last, arrive_ne_nil _ last, ?_, ?_⟩
      · exact arrive_plain (foldl_walk_plain (by simp) hfront) (hwhole last (by simp))
      · rw [readPath, hsplit, pathOf_concat hfront]

theorem readPath_of_isPath {path : List Char} (h : IsPath path) : readPath path = path := by
  obtain ⟨segments, hne, hplain, rfl⟩ := h
  obtain ⟨s, rest, rfl⟩ := List.exists_cons_of_ne_nil hne
  obtain hnil | ⟨front, last, hconcat⟩ := (s :: rest).eq_nil_or_concat'
  · simp at hnil
  · have hfront : ∀ t ∈ front, IsPlain t := fun t ht => hplain t (by simp [hconcat, ht])
    rw [joined_cons, readPath, splitPath_joined hplain, ← joined_cons, hconcat,
      pathOf_concat fun t ht => ⟨(hfront t ht).slash, (hfront t ht).backslash⟩,
      foldl_walk_of_plain hfront, arrive_of_plain (hplain last (by simp [hconcat])),
      List.nil_append]

theorem readPath_slash (s : List Char) :
    readPath (s ++ ['/']) = readPath s ∨ readPath (s ++ ['/']) = readPath s ++ ['/'] := by
  cases s with
  | nil => exact .inl rfl
  | cons c s =>
      obtain ⟨front, last, hsplit, hwhole⟩ := splitPath_concat s
      have hfront : ∀ t ∈ front, IsWhole t := fun t ht => hwhole t (List.mem_append_left _ ht)
      have hmore : splitPath true (s ++ ['/']) = front ++ [last] ++ [[]] := by
        rw [← hsplit, splitPath_eq, splitPath_eq, List.splitOnP_append_cons _ _ (by decide)]
        rfl
      rw [List.cons_append, readPath, readPath, hmore, hsplit, pathOf_concat hfront,
        pathOf_concat hwhole, List.foldl_append]
      exact joined_arrive_nil _ last

/-- Slashes at the end of a text do not matter for the path without slashes at its end. -/
theorem dropEndWhile_readPath (s : List Char) (n : Nat) :
    Text.dropEndWhile (· == '/') (readPath (s ++ List.replicate n '/')) =
      Text.dropEndWhile (· == '/') (readPath s) := by
  induction n with
  | zero => simp
  | succ n ih =>
      rw [List.replicate_succ', ← List.append_assoc]
      rcases readPath_slash (s ++ List.replicate n '/') with h | h
      · rw [h, ih]
      · rw [h, ← ih]
        simp [Text.dropEndWhile]

/-! ## More segments -/

/-- What more segments stand behind: the path, less one slash at its end. -/
def stem (u : Url) : List Char :=
  if (dropEmptyEnd u.path).length = 1 then [] else dropEmptyEnd u.path

/-- A raw segment as one segment of a path. -/
def code (s : String) : List Char := Percent.encode (Percent.segment true) s.toList

/-- A path has at least a slash. -/
def orSlash (path : List Char) : List Char := if path = [] then ['/'] else path

/-- The URL with more segments behind the stem of its path. -/
def below (u : Url) (segments : List String) : Url :=
  { u with path := orSlash (u.stem ++ joined (segments.map code)) }

/-- A text that stays one segment: it is neither empty nor a dot or two, and nothing is taken out of
it. -/
structure IsSegment (s : String) : Prop where
  nonempty : s ≠ ""
  dot : s ≠ "."
  dots : s ≠ ".."
  kept : ∀ c ∈ s.toList, isTabOrBreak c = false

/-- A dot in a segment, escaped or not, is a dot in what the segment stands for. -/
theorem decode_of_go {s rest : List Char} (h : dots.go s = '.' :: rest) :
    ∃ t, dots.go t = rest ∧ Percent.decode s = Percent.bytes '.' ++ Percent.decode t := by
  have hdot : Percent.bytes '.' = [0x2E] := by
    rw [Percent.bytes_eq]
    rfl
  have htwo : Text.hexValue? '2' = some 2 := by decide
  unfold dots.go at h
  split at h
  · next t =>
    have he : Text.hexValue? 'e' = some 14 := by decide
    exact ⟨t, (List.cons.inj h).2, by simp [Percent.decode, htwo, he, hdot]⟩
  · next t =>
    have hE : Text.hexValue? 'E' = some 14 := by decide
    exact ⟨t, (List.cons.inj h).2, by simp [Percent.decode, htwo, hE, hdot]⟩
  · next c t _ _ =>
    obtain ⟨rfl, rfl⟩ := List.cons.inj h
    exact ⟨t, rfl, Percent.decode_cons (by decide) t⟩
  · simp at h

theorem eq_nil_of_go {s : List Char} (h : dots.go s = []) : s = [] := by
  unfold dots.go at h
  split at h <;> simp_all

theorem decode_of_dots {s : List Char} (h : dots s ≠ 0) :
    Percent.decode s = ['.'].flatMap Percent.bytes ∨
      Percent.decode s = ['.', '.'].flatMap Percent.bytes := by
  unfold dots at h
  simp only [beq_iff_eq] at h
  split at h
  · next hone =>
    obtain ⟨t, ht, hs⟩ := decode_of_go hone
    obtain rfl := eq_nil_of_go ht
    exact .inl hs
  · split at h
    · next htwo =>
      obtain ⟨t, ht, hs⟩ := decode_of_go htwo
      obtain ⟨u, hu, ht⟩ := decode_of_go ht
      obtain rfl := eq_nil_of_go hu
      exact .inr (by rw [hs, ht]; rfl)
    · exact absurd rfl h

theorem segment_percent : Percent.segment true '%' = true := by decide

theorem decodeText_code (s : String) : Percent.decodeText (code s) = some s := by
  rw [code, Percent.decodeText_encode segment_percent, String.ofList_toList]

theorem isPlain_code {s : String} (h : IsSegment s) : IsPlain (code s) := by
  refine ⟨fun c hc => ?_, Percent.not_mem_encode (by decide) (by decide),
    Percent.not_mem_encode (by decide) (by decide), ?_⟩
  · rcases Percent.mem_encode hc with ⟨-, hlow, hhigh, hset⟩ | hescape
    · simp only [Percent.segment, Bool.or_eq_false_iff] at hset
      exact ⟨hlow, hhigh, hset.1.1.1⟩
    · exact hescape.plain Percent.spares_path
  · -- a segment that stands for a dot or two is one
    by_contra hdots
    rcases decode_of_dots hdots with hone | htwo
    · rw [code, Percent.decode_encode segment_percent] at hone
      exact h.dot (String.toList_inj.mp (Percent.flatMap_bytes_injective hone))
    · rw [code, Percent.decode_encode segment_percent] at htwo
      exact h.dots (String.toList_inj.mp (Percent.flatMap_bytes_injective htwo))

theorem code_ne_nil {s : String} (h : IsSegment s) : code s ≠ [] :=
  Percent.encode_ne_nil fun hnil => h.nonempty (String.toList_inj.mp hnil)

theorem length_joined_eq_one {segments : List (List Char)} :
    (joined segments).length = 1 ↔ segments = [[]] := by
  match segments with
  | [] => simp
  | [s] => simp
  | s :: t :: rest => simp

theorem orSlash_joined {segments : List (List Char)} (h : segments ≠ []) :
    orSlash (joined segments) = joined segments := by
  obtain ⟨s, rest, rfl⟩ := List.exists_cons_of_ne_nil h
  rfl

theorem pushSegment_joined {segments : List (List Char)} (hroot : segments ≠ [[]]) {s : String}
    (hs : IsSegment s) : pushSegment true (orSlash (joined segments)) s.toList =
      joined (segments ++ [code s]) := by
  have hdot : (s.toList == ['.'] || s.toList == ['.', '.']) = false := by
    simp only [Bool.or_eq_false_iff, beq_eq_false_iff_ne]
    exact ⟨fun heq => hs.dot (String.toList_inj.mp heq),
      fun heq => hs.dots (String.toList_inj.mp heq)⟩
  have hkept : s.toList.filter (!isTabOrBreak ·) = s.toList := by
    rw [List.filter_eq_self]
    intro c hc
    simp [hs.kept c hc]
  have hadd (path : List Char) : addSegment path (code s) = path ++ code s := by
    simp [addSegment, (isPlain_code hs).dots]
  unfold pushSegment
  rw [if_neg (by simpa using hdot), hkept]
  dsimp only
  rw [← code, hadd]
  by_cases hnone : segments = []
  · subst hnone
    simp [orSlash]
  · rw [orSlash_joined hnone, if_neg (by simpa [length_joined_eq_one] using hroot)]
    simp

theorem foldl_pushSegment {segments : List (List Char)} (hroot : segments ≠ [[]])
    {more : List String} (hmore : ∀ s ∈ more, IsSegment s) :
    (more.map String.toList).foldl (pushSegment true) (orSlash (joined segments)) =
      orSlash (joined (segments ++ more.map code)) := by
  induction more generalizing segments with
  | nil => simp
  | cons s more ih =>
      have hs := hmore s List.mem_cons_self
      have hgrown : segments ++ [code s] ≠ [[]] := by
        cases segments with
        | nil => simpa using code_ne_nil hs
        | cons t rest => simp
      rw [List.map_cons, List.foldl_cons, pushSegment_joined hroot hs,
        ← orSlash_joined (by simp), ih hgrown fun t ht => hmore t (List.mem_cons_of_mem s ht)]
      simp

theorem isPath_dropEmptyEnd {path : List Char} (h : IsPath path) : IsPath (dropEmptyEnd path) := by
  have hpath := h
  obtain ⟨segments, hne, hplain, rfl⟩ := h
  unfold dropEmptyEnd
  split
  · next hslash =>
    simp only [Bool.and_eq_true, decide_eq_true_eq, beq_iff_eq] at hslash
    obtain hnil | ⟨front, last, rfl⟩ := segments.eq_nil_or_concat'
    · exact absurd hnil hne
    · obtain hlast | ⟨cs, c, rfl⟩ := last.eq_nil_or_concat'
      · subst hlast
        refine ⟨front, ?_, fun s hs => hplain s (List.mem_append_left _ hs), by simp⟩
        rintro rfl
        simp at hslash
      · have hend : joined (front ++ [cs ++ [c]]) = joined front ++ '/' :: cs ++ [c] := by simp
        rw [hend, List.getLast?_concat] at hslash
        have hc : c = '/' := Option.some.inj hslash.2
        exact absurd (hc ▸ (hplain (cs ++ [c]) (by simp)).slash) (by simp)
  · exact hpath

/-- The segments of a stem. -/
theorem stem_of_isPath {u : Url} (h : IsPath u.path) :
    ∃ segments, segments ≠ [[]] ∧ (∀ s ∈ segments, IsPlain s) ∧
      dropEmptyEnd u.path = orSlash (joined segments) ∧ u.stem = joined segments := by
  obtain ⟨segments, hne, hplain, hpath⟩ := isPath_dropEmptyEnd h
  unfold stem
  rw [hpath]
  by_cases hroot : segments = [[]]
  · subst hroot
    exact ⟨[], by simp, by simp, rfl, rfl⟩
  · exact ⟨segments, hroot, hplain, (orSlash_joined hne).symm,
      if_neg fun h => hroot (length_joined_eq_one.mp h)⟩

theorem extend?_eq_below {u : Url} (hscheme : isSpecial u.scheme = true) (hpath : IsPath u.path)
    {segments : List String} (hsegments : ∀ s ∈ segments, IsSegment s) :
    u.extend? segments = some (u.below segments) := by
  obtain ⟨front, hroot, -, hend, hstem⟩ := stem_of_isPath hpath
  have hfold := foldl_pushSegment hroot hsegments
  rw [← hend, joined_append, ← hstem] at hfold
  unfold extend? isHierarchical
  rw [hscheme]
  dsimp only
  rw [hfold]
  rfl

/-- The segments of a URL with more segments. -/
theorem below_path {u : Url} (hpath : IsPath u.path) : ∃ front, ∀ {segments : List String},
    (∀ s ∈ segments, IsSegment s) →
      (u.below segments).path = orSlash (joined (front ++ segments.map code)) ∧
      (∀ s ∈ front ++ segments.map code, IsPlain s) ∧ front ++ segments.map code ≠ [[]] := by
  obtain ⟨front, hroot, hplain, -, hstem⟩ := stem_of_isPath hpath
  refine ⟨front, fun {segments} hsegments => ⟨?_, fun s hs => ?_, ?_⟩⟩
  · unfold below
    rw [hstem, joined_append]
  · rcases List.mem_append.mp hs with hmem | hmem
    · exact hplain s hmem
    · obtain ⟨t, ht, rfl⟩ := List.mem_map.mp hmem
      exact isPlain_code (hsegments t ht)
  · cases segments with
    | nil => simpa using hroot
    | cons s rest =>
        have hs := code_ne_nil (hsegments s List.mem_cons_self)
        cases front with
        | nil => simp [hs]
        | cons t front => simp

theorem isPath_below {u : Url} (hpath : IsPath u.path) {segments : List String}
    (hsegments : ∀ s ∈ segments, IsSegment s) : IsPath (u.below segments).path := by
  obtain ⟨front, hbelow⟩ := below_path hpath
  obtain ⟨hshown, hplain, -⟩ := hbelow hsegments
  rw [hshown]
  by_cases hnone : front ++ segments.map code = []
  · rw [hnone]
    exact ⟨[[]], by simp, by simp [isPlain_nil], rfl⟩
  · exact ⟨_, hnone, hplain, orSlash_joined hnone⟩

/-- The stem is the path but for slashes at its end. -/
theorem dropEndWhile_stem {u : Url} (h : IsPath u.path) :
    Text.dropEndWhile (· == '/') u.stem = Text.dropEndWhile (· == '/') u.path := by
  obtain ⟨segments, -, -, hend, hstem⟩ := stem_of_isPath h
  have hroot (path : List Char) : Text.dropEndWhile (· == '/') (orSlash path) =
      Text.dropEndWhile (· == '/') path := by
    unfold orSlash
    split
    · next hnil => rw [hnil]; rfl
    · rfl
  rw [hstem, ← hroot, ← hend]
  unfold dropEmptyEnd
  split
  · next hslash =>
    simp only [Bool.and_eq_true, decide_eq_true_eq, beq_iff_eq] at hslash
    obtain ⟨front, hpath⟩ := List.getLast?_eq_some_iff.mp hslash.2
    rw [hpath]
    simp [Text.dropEndWhile]
  · rfl

/-- A stem that ends in a slash comes from a path that ends in two. -/
theorem path_of_stem {u : Url} {s : List Char} (h : u.stem = s ++ ['/']) :
    u.path = s ++ ['/', '/'] := by
  unfold stem at h
  split at h
  · simp at h
  · next hlength =>
    unfold dropEmptyEnd at h hlength
    split at h
    · next hslash =>
      simp only [Bool.and_eq_true, decide_eq_true_eq, beq_iff_eq] at hslash
      obtain ⟨front, hpath⟩ := List.getLast?_eq_some_iff.mp hslash.2
      rw [hpath, List.dropLast_concat] at h
      rw [hpath, h]
      simp
    · next hslash =>
      rw [if_neg hslash] at hlength
      rw [h] at hslash hlength
      simp at hslash hlength
      exact absurd hslash hlength

/-! ## Different segments -/

theorem code_injective {s t : String} (h : code s = code t) : s = t :=
  String.toList_inj.mp (Percent.encode_injective segment_percent h)

theorem orSlash_injective {path path' : List Char} (h : path.length ≠ 1) (h' : path'.length ≠ 1)
    (heq : orSlash path = orSlash path') : path = path' := by
  unfold orSlash at heq
  split at heq
  · next hnil =>
    split at heq
    · next hnil' => rw [hnil, hnil']
    · exact absurd (by rw [← heq]; rfl) h'
  · split at heq
    · exact absurd (by rw [heq]; rfl) h
    · exact heq

theorem below_injective {u : Url} (hpath : IsPath u.path) {segments segments' : List String}
    (hsegments : ∀ s ∈ segments, IsSegment s) (hsegments' : ∀ s ∈ segments', IsSegment s)
    (h : (u.below segments).path = (u.below segments').path) : segments = segments' := by
  obtain ⟨front, hbelow⟩ := below_path hpath
  obtain ⟨hshown, hplain, hroot⟩ := hbelow hsegments
  obtain ⟨hshown', hplain', hroot'⟩ := hbelow hsegments'
  rw [hshown, hshown'] at h
  have hjoined := orSlash_injective (fun hone => hroot (length_joined_eq_one.mp hone))
    (fun hone => hroot' (length_joined_eq_one.mp hone)) h
  have hcodes := joined_injective (fun s hs => (hplain s hs).slash)
    (fun s hs => (hplain' s hs).slash) hjoined
  exact List.map_injective_iff.mpr (fun _ _ => code_injective) (List.append_cancel_left hcodes)

end PartDepot.Url
