import Mathlib.Data.String.Basic
import PartDepot.Proofs.Values

/-!
# Keys read back

A key is written in the form of its text.  A short one of one line stands in front of its colon and
is recognised by it; any other stands behind a question mark, and the colon begins the next line.
-/

namespace PartDepot.Yaml

/-! ## Tokens -/

/-- What may follow a value: no gap, no directive and no document marker. -/
structure IsToken (s : List Char) : Prop where
  solid : StartsSolid s
  directive : s.head? ≠ some '%'
  marker : startsMarker s = false

theorem IsToken.nil : IsToken [] := ⟨by simp [StartsSolid], by simp, rfl⟩

theorem atBoundary_of_isToken {token : List Char} (htoken : IsToken token) (hnil : token ≠ [])
    (m : Mark) (k : Bool) : (⟨token, m, k, {}⟩ : Cursor).atBoundary = false := by
  simp [Cursor.atBoundary, hnil, atMarker, htoken.marker]

theorem atDirective_of_isToken {token : List Char} (htoken : IsToken token) (m : Mark) (k : Bool) :
    (⟨token, m, k, {}⟩ : Cursor).atDirective = false := by
  simp [Cursor.atDirective, htoken.directive]

def startsDash (s : List Char) : Bool := s.head? == some '-' && isGap (s.drop 1).head?

/-- A sign that opens a key in quotes or behind a question mark. -/
theorem isToken_of_sign {q : Char} (hq : q ∈ ['\'', '"', '?']) (rest : List Char) :
    IsToken (q :: rest) := by
  simp only [List.mem_cons, List.not_mem_nil, or_false] at hq
  refine ⟨?_, ?_, ?_⟩
  · rintro d ⟨⟩
    rcases hq with rfl | rfl | rfl <;> decide
  · rcases hq with rfl | rfl | rfl <;> simp
  · rcases hq with rfl | rfl | rfl <;> rfl

theorem StandsPlain.isToken {c : Char} {cs : List Char} (h : StandsPlain c cs) (v : List Char) :
    IsToken (c :: (cs ++ ':' :: v)) := by
  have hmem := h.first_notMem
  simp only [List.mem_cons, List.not_mem_nil, or_false, not_or] at hmem
  refine ⟨h.startsSolid _, by simp [hmem], ?_⟩
  -- A marker of three characters would stand in the text itself, since no colon is part of one.
  have hmarker := h.noMarker
  match cs with
  | [] => simp [startsMarker]
  | [d] => simp [startsMarker]
  | d :: e :: es =>
    unfold startsLikeMarker at hmarker
    unfold startsMarker
    split <;> simp_all

/-! ## Keys on one line -/

/-- How a key that needs no question mark is written. -/
inductive SimpleKey (indent : Nat) (key : String) : Prop where
  | plain (c : Char) (cs : List Char) (hform : form key = .plain) (hchars : key.toList = c :: cs)
      (hplain : StandsPlain c cs) (htext : renderKey indent key = c :: (cs ++ [':']))
  | single (hform : form key = .single)
      (htext : renderKey indent key =
        '\'' :: (singleBody (indent + 2) false key.toList ++ ['\'', ':']))
  | double (hform : form key = .double)
      (htext : renderKey indent key = '"' :: (key.toList.flatMap doubleChar ++ ['"', ':']))

section SimpleKey

variable {key : String} (hsimple : isSimpleKey key = true)

include hsimple

theorem not_isBreak_of_isSimpleKey : ∀ c ∈ key.toList, isBreak c = false := by
  simp only [isSimpleKey, Bool.and_eq_true, Bool.not_eq_true', List.any_eq_false,
    Bool.not_eq_true] at hsimple
  exact hsimple.1

theorem simpleKey_of_isSimpleKey (indent : Nat) : SimpleKey indent key := by
  have hkey : renderKey indent key = (renderText (indent + 2) key).dropLast ++ [':'] := by
    rw [renderKey, if_pos hsimple]
  cases hform : form key with
  | plain =>
      obtain ⟨c, cs, hchars, hplain⟩ := standsPlain_of_form hform
      have htext : renderText (indent + 2) key = (c :: cs) ++ ['\n'] := by
        simp [renderText, hform, hchars]
      exact .plain c cs hform hchars hplain (by rw [hkey, htext, List.dropLast_concat]; rfl)
  | single =>
      have htext : renderText (indent + 2) key =
          '\'' :: (singleBody (indent + 2) false key.toList ++ ['\'']) ++ ['\n'] := by
        simp [renderText, hform]
      exact .single hform (by rw [hkey, htext, List.dropLast_concat]; simp)
  | double =>
      have htext : renderText (indent + 2) key =
          '"' :: (key.toList.flatMap doubleChar ++ ['"']) ++ ['\n'] := by
        simp [renderText, hform]
      exact .double hform (by rw [hkey, htext, List.dropLast_concat]; simp)
  | literal =>
      have hbreak := not_isBreak_of_isSimpleKey hsimple '\n' (form_literal hform).1
      exact absurd hbreak (by decide)

theorem length_le_of_isSimpleKey : key.toList.length ≤ keyBytes := by
  have hsize : key.utf8ByteSize ≤ keyBytes := by
    simp only [isSimpleKey, Bool.and_eq_true, decide_eq_true_eq] at hsimple
    exact hsimple.2
  have hlength (cs : List Char) : cs.length ≤ String.utf8Len cs := by
    induction cs with
    | nil => simp
    | cons c cs ih =>
        have hpos := c.utf8Size_pos
        simp only [List.length_cons, String.utf8Len_cons]
        omega
  have hchars := hlength key.toList
  rw [← String.utf8ByteSize_ofList, String.ofList_toList] at hchars
  exact Nat.le_trans hchars hsize

end SimpleKey

theorem length_doubleChar_le (c : Char) : (doubleChar c).length ≤ 6 := by
  obtain ⟨hform, -⟩ | ⟨e, hform, -⟩ | ⟨e, w, hform, -, -, -, hw⟩ := doubleChar_cases c
  · simp [hform]
  · simp [hform]
  · simp [hform, length_upperHex]
    omega

theorem length_flatMap_doubleChar_le (cs : List Char) :
    (cs.flatMap doubleChar).length ≤ 6 * cs.length := by
  induction cs with
  | nil => simp
  | cons c cs ih =>
      have hc := length_doubleChar_le c
      simp only [List.flatMap_cons, List.length_append, List.length_cons]
      omega

theorem length_singleBody_le (indent : Nat) {cs : List Char} (hline : ∀ c ∈ cs, isBreak c = false) :
    (singleBody indent false cs).length ≤ 2 * cs.length := by
  induction cs with
  | nil => simp [singleBody]
  | cons c cs ih =>
      have hrest := ih fun d hd => hline d (List.mem_cons_of_mem c hd)
      have hquote : (if c = '\'' then ['\'', '\''] else [c]).length ≤ 2 := by
        split <;> simp
      rw [singleBody, if_neg (by simp [hline c List.mem_cons_self]), if_neg (by simp),
        List.nil_append, List.length_append, List.length_cons]
      omega

/-- The colon behind a key on one line is found where the key ends. -/
theorem afterKey?_colon {v : List Char} (hv : isGap v.head? = true) (m : Mark) (len : Nat)
    (hlen : len ≤ keyLimit) (k : Bool) :
    afterKey? false m ⟨':' :: v, m.skip len, k, {}⟩ = some ⟨v, m.skip (len + 1), false, {}⟩ := by
  have hsolid : StartsSolid (':' :: v) := by
    rintro d ⟨⟩
    decide
  simp [afterKey?, Cursor.pass, passGap_solid hsolid, Mark.skip, hlen, Cursor.atBoundary,
    Cursor.atColon, Cursor.standsAlone, hv, Cursor.skip, Cursor.withKey, atMarker, startsMarker]
  omega

/-- A key on one line is read as a leaf, and behind it stands its colon. -/
theorem readAtom_renderKey {key : String} (hsimple : isSimpleKey key = true) {v : List Char}
    (hv : isGap v.head? = true) (indent : Nat) {parent : Int} {m : Mark} (hm : parent ≤ m.column)
    (k : Bool) (fuel : Nat) :
    ∃ after, readAtom (fuel + 1) false parent ⟨renderKey indent key ++ v, m, k, {}⟩ =
        some (.scalar {} (form key == .plain) key, after) ∧
      afterKey? false m after = some ⟨v, m.skip (renderKey indent key).length, false, {}⟩ := by
  have hline := not_isBreak_of_isSimpleKey hsimple
  have hlength : key.toList.length ≤ 128 := length_le_of_isSimpleKey hsimple
  have hlimit : keyLimit = 1024 := rfl
  cases simpleKey_of_isSimpleKey hsimple indent with
  | plain c cs hform hchars hplain htext =>
      have hmem := hplain.first_notMem
      simp only [List.mem_cons, List.not_mem_nil, or_false, not_or] at hmem
      have hstop : scanPlain false (parent + 1) true (':' :: v) (m.skip (c :: cs).length) {} =
          some ⟨[], ':' :: v, m.skip (c :: cs).length, false⟩ := by
        rw [scanPlain_cons (by decide)]
        simp [isBreak, isSpaceOrTab, hv]
      have hscan := hplain.scan (show parent + 1 ≤ (m.column : Int) + 1 by omega) (':' :: v)
      rw [hstop] at hscan
      have hstarts := hplain.startsPlain (':' :: v)
      have hkey : String.ofList (c :: cs) = key := by rw [← hchars, String.ofList_toList]
      have hafter := afterKey?_colon hv m (c :: cs).length (by rw [← hchars]; omega) false
      refine ⟨_, ?_, by simpa [htext] using hafter⟩
      rw [htext, List.cons_append, List.append_assoc, List.cons_append, List.nil_append,
        readAtom_leaf (by rintro d ⟨⟩; simp [hmem]), readLeaf]
      simp [hmem, hstarts, hscan, Scanned.prepend, Cursor.after, hform, hkey]
  | single hform htext =>
      obtain ⟨hfeed, hbreakBlank, hspecial⟩ := form_single hform
      obtain ⟨hblankBreak, hprint⟩ := special_eq_false hspecial
      have hbody := length_singleBody_le (indent + 2) hline
      obtain ⟨m', -, hend, hscan⟩ := scanSingle_rest (Nat.succ_pos (indent + 1))
        (show (':' :: v).head? ≠ some '\'' by simp) false true (m := m.next) (g := {})
        (fun c hc => ⟨hprint c hc, by rintro rfl; exact hfeed hc⟩) hblankBreak hbreakBlank rfl
        (by simp)
        fun _ => ⟨by simp [Mark.next], .inl rfl⟩
      rw [hend hline, Mark.next_skip] at hscan
      have hafter := afterKey?_colon hv m
        ((singleBody (indent + 2) false key.toList).length + 1 + 1) (by omega) false
      refine ⟨_, ?_, by simpa [htext] using hafter⟩
      rw [htext, List.cons_append, List.append_assoc, List.cons_append, List.cons_append,
        List.nil_append, readAtom_leaf (by rintro d ⟨⟩; decide)]
      simp [readLeaf, hscan, Cursor.after, Gap.fold, hform]
  | double hform htext =>
      have hbody := length_flatMap_doubleChar_le key.toList
      have hscan := scanDouble_rest (.inl rfl) key.toList (':' :: v) (m := m.next)
        (by simp [Mark.next]) (g := {}) rfl
      rw [Mark.next_skip] at hscan
      have hafter := afterKey?_colon hv m
        ((key.toList.flatMap doubleChar).length + 1 + 1) (by omega) false
      refine ⟨_, ?_, by simpa [htext] using hafter⟩
      rw [htext, List.cons_append, List.append_assoc, List.cons_append, List.cons_append,
        List.nil_append, readAtom_leaf (by rintro d ⟨⟩; decide)]
      simp [readLeaf, hscan, Cursor.after, Gap.fold, hform]

/-! ## Where a key starts -/

section Start

variable (indent : Nat) (key : String) (v : List Char)

theorem renderKey_question (hsimple : isSimpleKey key = false) : renderKey indent key ++ v =
    '?' :: ' ' :: (renderText (indent + 2) key ++ (indentation indent ++ ':' :: v)) := by
  simp [renderKey, hsimple]

theorem isToken_renderKey : IsToken (renderKey indent key ++ v) := by
  cases hsimple : isSimpleKey key with
  | false =>
      rw [renderKey_question indent key v hsimple]
      exact isToken_of_sign (by simp) _
  | true =>
      cases simpleKey_of_isSimpleKey hsimple indent with
      | plain c cs hform hchars hplain htext =>
          rw [htext, List.cons_append, List.append_assoc, List.singleton_append]
          exact hplain.isToken v
      | single hform htext =>
          rw [htext]
          exact isToken_of_sign (by simp) _
      | double hform htext =>
          rw [htext]
          exact isToken_of_sign (by simp) _

theorem renderKey_ne_nil : renderKey indent key ≠ [] := by
  unfold renderKey
  split <;> simp

/-- A question mark announces a key exactly where it has to; no other sign stands there. -/
theorem renderKey_signs (m : Mark) (k : Bool) :
    (⟨renderKey indent key ++ v, m, k, {}⟩ : Cursor).atDash = false ∧
      (⟨renderKey indent key ++ v, m, k, {}⟩ : Cursor).atQuestion false = !isSimpleKey key ∧
      (⟨renderKey indent key ++ v, m, k, {}⟩ : Cursor).atColon false = false ∧
      (⟨renderKey indent key ++ v, m, k, {}⟩ : Cursor).atBlockScalar = false ∧
      ∀ d ∈ (renderKey indent key ++ v).head?, d ≠ '&' ∧ d ≠ '!' := by
  cases hsimple : isSimpleKey key with
  | false =>
      rw [renderKey_question indent key v hsimple]
      simp [Cursor.atDash, Cursor.atQuestion, Cursor.atColon, Cursor.atBlockScalar,
        Cursor.standsAlone, isGap, isSpaceOrTab]
  | true =>
      cases simpleKey_of_isSimpleKey hsimple indent with
      | plain c cs hform hchars hplain htext =>
          have hmem := hplain.first_notMem
          simp only [List.mem_cons, List.not_mem_nil, or_false, not_or] at hmem
          obtain ⟨hdash, hquestion, hcolon⟩ := hplain.no_indicator (':' :: v) m k
          rw [htext, List.cons_append, List.append_assoc, List.singleton_append]
          simp [hdash, hquestion, hcolon, Cursor.atBlockScalar, hmem]
      | single hform htext =>
          simp [htext, Cursor.atDash, Cursor.atQuestion, Cursor.atColon, Cursor.atBlockScalar]
      | double hform htext =>
          simp [htext, Cursor.atDash, Cursor.atQuestion, Cursor.atColon, Cursor.atBlockScalar]

end Start

/-! ## Members of a mapping -/

section Entries

variable {column : Nat} {c : Cursor} {l : Nat}

/-- A mapping ends where a token stands to the left of its members, or at the end of the text. -/
theorem readEntries_end {n : Nat} {token : List Char} (htoken : IsToken token)
    (hc : c.Lands l n token) (hn : n < column ∨ token = []) (fuel : Nat) :
    ∃ after, readEntries (fuel + 1) column c = some ([], after) ∧ after.Lands l n token := by
  obtain ⟨m, hm, hl, hpass⟩ := hc
  refine ⟨⟨token, m, true, {}⟩, ?_, Cursor.lands_of_token htoken.solid hm hl⟩
  have hends :
      ((⟨token, m, true, {}⟩ : Cursor).atBoundary || decide (m.column < column)) = true := by
    rcases hn with hn | rfl
    · simp [hm, hn]
    · simp [Cursor.atBoundary]
  rw [readEntries]
  simp [hpass, atDirective_of_isToken htoken, hends]

variable {key : String} {v : List Char} (hv : isGap v.head? = true)

include hv

/-- A member whose key stands on one line with its colon, and the members behind it. -/
theorem readEntries_simple (hsimple : isSimpleKey key = true) {m : Mark} (hm : m.column = column)
    (hpass : c.pass false = ⟨renderKey column key ++ v, m, true, {}⟩) (fuel : Nat) :
    readEntries (fuel + 2) column c = (do
      let (value, c) ← readBlockNode (fuel + 1) column true
        ⟨v, m.skip (renderKey column key).length, false, {}⟩
      let (entries, c) ← readEntries (fuel + 1) column c
      some ((.scalar {} (form key == .plain) key, value) :: entries, c)) := by
  obtain ⟨leaf, hleaf, hbehind⟩ :=
    readAtom_renderKey hsimple hv column (show (column : Int) ≤ m.column by omega) true fuel
  have htoken := isToken_renderKey column key v
  have hnil := List.append_ne_nil_of_left_ne_nil (renderKey_ne_nil column key) v
  obtain ⟨hdash, hquestion, hcolon, -, hproperty⟩ := renderKey_signs column key v m true
  rw [hsimple] at hquestion
  generalize renderKey column key ++ v = s at *
  have hproperties :=
    readProperties_none (c := ⟨s, m, true, {}⟩) hproperty false (column - 1) s.length
  rw [readEntries]
  simp [hpass, atDirective_of_isToken htoken, atBoundary_of_isToken htoken hnil, hm, hdash,
    hquestion, hproperties, hcolon, hleaf, hbehind, Props.ofList?, Node.withProps]

/-- A mapping whose first key stands on one line with its colon. -/
theorem readPlaced_simple (hsimple : isSimpleKey key = true) {m : Mark} {parent : Int}
    (hparent : parent ≤ m.column) (fuel : Nat) :
    readPlaced (fuel + 2) parent [] ⟨renderKey m.column key ++ v, m, true, {}⟩ = (do
      let (value, c) ← readBlockNode (fuel + 1) m.column true
        ⟨v, m.skip (renderKey m.column key).length, false, {}⟩
      let (entries, c) ← readEntries (fuel + 1) m.column c
      some (.mapping {} ((.scalar {} (form key == .plain) key, value) :: entries), c)) := by
  obtain ⟨leaf, hleaf, hbehind⟩ := readAtom_renderKey hsimple hv m.column hparent true fuel
  obtain ⟨hdash, hquestion, hcolon, -, -⟩ := renderKey_signs m.column key v m true
  rw [hsimple] at hquestion
  generalize renderKey m.column key ++ v = s at *
  rw [readPlaced]
  simp [hdash, hquestion, hcolon, hleaf, hbehind, Props.ofList?, Node.withProps]

/-- A member whose key stands behind a question mark, and the members behind it. -/
theorem readEntries_question (hsimple : isSimpleKey key = false) {m : Mark} (hm : m.column = column)
    (hpass : c.pass false = ⟨renderKey column key ++ v, m, true, {}⟩) (fuel : Nat) :
    ∃ m' : Mark, m'.column = column + 1 ∧ m.line ≤ m'.line ∧ readEntries (fuel + 4) column c = (do
      let (value, c) ← readBlockNode (fuel + 3) column true ⟨v, m', true, {}⟩
      let (entries, c) ← readEntries (fuel + 3) column c
      some ((.scalar {} (form key == .plain) key, value) :: entries, c)) := by
  have hsolid : StartsSolid (':' :: v) := by
    rintro d ⟨⟩
    decide
  obtain ⟨after, hread, m', hm', hl, hlands⟩ := readBlockNode_renderText hsolid (m := m.skip 1)
    (by simp [Mark.skip, hm]) true true fuel (Nat.le_refl column) key
  have htoken := isToken_renderKey column key v
  have hnil := List.append_ne_nil_of_left_ne_nil (renderKey_ne_nil column key) v
  obtain ⟨hdash, hquestion, -, -, -⟩ := renderKey_signs column key v m true
  have hskip : ((⟨renderKey column key ++ v, m, true, {}⟩ : Cursor).skip 1).withKey true =
      ⟨' ' :: (renderText (column + 2) key ++ (indentation column ++ ':' :: v)), m.skip 1, true,
      {}⟩ := by
    rw [renderKey_question column key v hsimple]
    rfl
  have hcolon : (⟨':' :: v, m', true, {}⟩ : Cursor).atColon false = true := by
    simp [Cursor.atColon, Cursor.standsAlone, hv]
  have hboundary : (⟨':' :: v, m', true, {}⟩ : Cursor).atBoundary = false := by
    simp [Cursor.atBoundary, atMarker, startsMarker]
  have hbehind : ((⟨':' :: v, m', true, {}⟩ : Cursor).skip 1).withKey true =
      ⟨v, m'.skip 1, true, {}⟩ := rfl
  rw [hsimple] at hquestion
  refine ⟨m'.skip 1, by simp [Mark.skip, hm'], by simpa [Mark.skip] using Nat.le_of_succ_le hl, ?_⟩
  generalize renderKey column key ++ v = s at *
  rw [readEntries]
  simp [hpass, atDirective_of_isToken htoken, atBoundary_of_isToken htoken hnil, hm, hdash,
    hquestion, hskip, hread, hlands, hm', hcolon, hboundary, hbehind]

/-- A member and the members behind it. The value of a key behind a question mark may start
on the line of its colon. -/
theorem readEntries_key (hc : c.Lands l column (renderKey column key ++ v)) {fuel : Nat}
    {value : Node} {l' n : Nat} {token : List Char} {nodes : List (Node × Node)}
    {P : Cursor → Prop} (hvalue : ∀ (m : Mark) (k : Bool), column ≤ m.column → l ≤ m.line →
      (isSimpleKey key = false → m.column = column + 1 ∧ k = true) → ∃ after,
        readBlockNode (fuel + 3) column true ⟨v, m, k, {}⟩ = some (value, after) ∧
          after.Lands l' n token)
    (hrest : ∀ after : Cursor, after.Lands l' n token → ∃ last,
      readEntries (fuel + 3) column after = some (nodes, last) ∧ P last) :
    ∃ last, readEntries (fuel + 4) column c =
      some ((.scalar {} (form key == .plain) key, value) :: nodes, last) ∧ P last := by
  obtain ⟨m, hm, hl, hpass⟩ := hc
  cases hsimple : isSimpleKey key with
  | true =>
      obtain ⟨after, hread, hlands⟩ := hvalue (m.skip (renderKey column key).length) false
        (by simp [Mark.skip, hm]) hl (by simp [hsimple])
      obtain ⟨last, hnodes, hlast⟩ := hrest after hlands
      refine ⟨last, ?_, hlast⟩
      rw [readEntries_simple hv hsimple hm hpass (fuel + 2)]
      simp [hread, hnodes]
  | false =>
      obtain ⟨m', hm', hl', heq⟩ := readEntries_question hv hsimple hm hpass fuel
      obtain ⟨after, hread, hlands⟩ := hvalue m' true (by omega) (Nat.le_trans hl hl')
        fun _ => ⟨hm', rfl⟩
      obtain ⟨last, hnodes, hlast⟩ := hrest after hlands
      refine ⟨last, ?_, hlast⟩
      rw [heq]
      simp [hread, hnodes]

/-- Where the first key of a mapping stands the mapping is read as its members are. -/
theorem readPlaced_key {m : Mark} {parent : Int} (hparent : parent ≤ m.column) {fuel : Nat}
    {nodes : List (Node × Node)} {P : Cursor → Prop}
    (hentries : ∀ f, fuel + 1 ≤ f → ∃ last, readEntries f m.column
      ⟨renderKey m.column key ++ v, m, true, {}⟩ = some (nodes, last) ∧ P last) :
    ∃ last, readPlaced (fuel + 2) parent [] ⟨renderKey m.column key ++ v, m, true, {}⟩ =
      some (.mapping {} nodes, last) ∧ P last := by
  have htoken := isToken_renderKey m.column key v
  have hpass : Cursor.pass false ⟨renderKey m.column key ++ v, m, true, {}⟩ =
      ⟨renderKey m.column key ++ v, m, true, {}⟩ := by
    simp [Cursor.pass, passGap_solid htoken.solid]
  cases hsimple : isSimpleKey key with
  | true =>
      obtain ⟨last, hread, hlast⟩ := hentries (fuel + 2) (Nat.le_succ _)
      refine ⟨last, ?_, hlast⟩
      rw [readEntries_simple hv hsimple rfl hpass] at hread
      rw [readPlaced_simple hv hsimple hparent]
      simp only [Option.bind_eq_bind, Option.bind_eq_some_iff, Option.some.injEq,
        Prod.mk.injEq] at hread
      obtain ⟨r, hvalue, rs, hrest, rfl, rfl⟩ := hread
      simp [hvalue, hrest]
  | false =>
      obtain ⟨last, hread, hlast⟩ := hentries (fuel + 1) (Nat.le_refl _)
      obtain ⟨hdash, hquestion, -, -, -⟩ := renderKey_signs m.column key v m true
      rw [hsimple] at hquestion
      refine ⟨last, ?_, hlast⟩
      generalize renderKey m.column key ++ v = s at *
      rw [readPlaced]
      simp [hdash, hquestion, hread, Props.ofList?]

end Entries

end PartDepot.Yaml
