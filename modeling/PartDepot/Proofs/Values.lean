import PartDepot.Proofs.Blocks
import PartDepot.Yaml.Reader

/-!
# Texts read back as nodes

Behind a colon or a dash the reader passes the blank, reads the text in whatever form it was
written, and stops at the next token, which stands at the column of its indentation.
-/

namespace PartDepot.Yaml

/-! ## Plain texts -/

/-- A text of one line that may stand without quotes. -/
structure StandsPlain (c : Char) (cs : List Char) : Prop where
  noMarker : startsLikeMarker (c :: cs) = false
  leading : isLeadingSign c cs.head? = false
  inner : hasInnerSign c cs = false
  printable : ∀ d ∈ c :: cs, isPrintable d = true ∧ isBreak d = false
  first : c ≠ ' '
  last : (c :: cs).getLast? ≠ some ' '

theorem standsPlain_of_form {s : String} (h : form s = .plain) :
    ∃ c cs, s.toList = c :: cs ∧ StandsPlain c cs := by
  obtain ⟨hresolve, hmultiline, hindicators, houter, hspecial⟩ := form_plain h
  cases hchars : s.toList with
  | nil =>
      have hempty : s = "" := by simpa using hchars
      rw [hempty] at hresolve
      exact absurd hresolve (by decide)
  | cons c cs =>
      simp only [shape, hchars, Bool.or_eq_false_iff] at hmultiline hindicators houter
      have hprint := (special_eq_false hspecial).2
      rw [hchars] at hprint
      refine ⟨c, cs, rfl, hindicators.1, hindicators.2.1, hindicators.2.2,
        fun d hd => ⟨hprint d hd, ?_⟩, ?_, ?_⟩
      · simpa using List.any_eq_false.mp hmultiline d hd
      · rintro rfl
        simp at houter
      · intro hlast
        simp [hlast] at houter

namespace StandsPlain

variable {c : Char} {cs : List Char} (h : StandsPlain c cs)

include h

/-- No sign with a meaning of its own comes first. -/
theorem first_notMem :
    c ∉ ['#', ',', '[', ']', '\x7b', '\x7d', '&', '*', '!', '|', '>', '\'', '"', '%',
    '@', '`'] := by
  have hlead := h.leading
  rw [isLeadingSign, Bool.or_eq_false_iff] at hlead
  intro hmem
  exact absurd (List.contains_iff_mem.mpr hmem) (by simpa using hlead.1)

theorem isGap_false (hsign : c = '?' ∨ c = ':' ∨ c = '-') : isGap cs.head? = false := by
  have hlead := h.leading
  rw [isLeadingSign, Bool.or_eq_false_iff] at hlead
  rcases hsign with rfl | rfl | rfl <;> simpa using hlead.2

theorem not_isSpaceOrTab : isSpaceOrTab c = false := by
  rw [← Bool.not_eq_true, isSpaceOrTab_iff_of_isPrintable (h.printable c List.mem_cons_self).1]
  exact h.first

theorem startsSolid (rest : List Char) : StartsSolid (c :: rest) := by
  rintro d ⟨⟩
  refine ⟨h.not_isSpaceOrTab, (h.printable c List.mem_cons_self).2, ?_, ?_⟩
  · rintro rfl
    exact h.first_notMem (by decide)
  · rintro rfl
    exact absurd (h.printable _ List.mem_cons_self).1 (by decide)

/-- A sign that announces something only before a gap has none behind it. -/
theorem not_isGap_append (hsign : c = '?' ∨ c = ':' ∨ c = '-') (tail : List Char) :
    isGap (cs ++ tail).head? = false := by
  have hgap := h.isGap_false hsign
  cases cs with
  | nil => exact absurd hgap (by decide)
  | cons d ds => exact hgap

theorem startsPlain (tail : List Char) : startsPlain false (c :: (cs ++ tail)) = true := by
  have hgap := fun hsign => h.not_isGap_append hsign tail
  generalize cs ++ tail = behind at hgap ⊢
  unfold Yaml.startsPlain
  by_cases hdash : c = '-'
  · simp [hdash, hgap (.inr (.inr hdash))]
  · by_cases hsign : c = '?' ∨ c = ':'
    · have hgap' := hgap (by rcases hsign with h | h <;> simp [h])
      simp [hdash, hsign, hgap']
    · have hmem := h.first_notMem
      simp only [List.mem_cons, List.not_mem_nil, or_false, not_or] at hmem
      simp [hdash, hsign, hmem, h.not_isSpaceOrTab, (h.printable c List.mem_cons_self).2]

/-- No dash, question mark or colon stands alone where the text starts. -/
theorem no_indicator (tail : List Char) (m : Mark) (k : Bool) :
    (⟨c :: (cs ++ tail), m, k, {}⟩ : Cursor).atDash = false ∧
      (⟨c :: (cs ++ tail), m, k, {}⟩ : Cursor).atQuestion false = false ∧
      (⟨c :: (cs ++ tail), m, k, {}⟩ : Cursor).atColon false = false := by
  have hgap := fun hsign => h.not_isGap_append hsign tail
  refine ⟨?_, ?_, ?_⟩
  · simpa [Cursor.atDash, Cursor.standsAlone] using fun hc => hgap (.inr (.inr hc))
  · simpa [Cursor.atQuestion, Cursor.standsAlone] using fun hc => hgap (.inl hc)
  · simpa [Cursor.atColon, Cursor.standsAlone] using fun hc => hgap (.inr (.inl hc))

/-- The text is read up to what comes next, which is read as if nothing had come before it. -/
theorem scan {indent : Int} {m : Mark} (hm : indent ≤ (m.column : Int) + 1) (tail : List Char) :
    scanPlain false indent true (c :: (cs ++ tail)) m {} =
      (scanPlain false indent true tail (m.skip (c :: cs).length) {}).map
        (·.prepend (c :: cs)) := by
  have hinner : hasInnerSign 'a' (c :: cs) = false := by
    have hhash : c ≠ '#' := by
      rintro rfl
      exact h.first_notMem (by decide)
    have hcolon : c = ':' → isGap cs.head? = false := fun hc => h.isGap_false (.inr (.inl hc))
    have hcolon' : (c == ':' && isGap cs.head?) = false := by
      cases hc : c == ':' with
      | true => simpa using hcolon (by simpa using hc)
      | false => rfl
    simp [hasInnerSign, hhash, hcolon', h.inner]
  simpa using scanPlain_append (List.cons_ne_nil c cs) true (g := {}) h.printable hinner h.last
    (by simp) hm rfl tail

/-- A plain text whose line ends behind it. -/
theorem scan_line {parent n : Nat} {token : List Char} (htoken : StartsSolid token)
    (hn : n ≤ parent) {m : Mark} (hm : parent < m.column) :
    ∃ m', m'.column = n ∧ m.line < m'.line ∧ scanPlain false (parent + 1) true
      (c :: (cs ++ '\n' :: (indentation n ++ token))) m {} = some ⟨c :: cs, token, m', true⟩ := by
  refine ⟨((m.skip (c :: cs).length).newline 1).skip n, by simp [Mark.skip, Mark.newline],
    by simp [Mark.skip, Mark.newline], ?_⟩
  rw [h.scan (by omega), scanPlain_cons (by decide), if_pos (by decide),
    scanPlain_outdent htoken (by simp [Mark.newline]; omega) (by simp [Gap.addBreak])]
  simp [Scanned.prepend]

end StandsPlain

/-! ## Gaps between tokens -/

theorem passGap_solid {s : List Char} (hs : StartsSolid s) (m : Mark) (k : Bool) :
    passGap false false s m k = (s, m, k) := by
  cases s with
  | nil => rfl
  | cons c rest =>
      obtain ⟨hblank, hbreak, hhash, hmark⟩ := hs.cons
      have hne : c ≠ ' ' ∧ c ≠ '\t' := by simpa [isSpaceOrTab] using hblank
      rw [passGap]
      · simp [hbreak, hhash, hmark, hne]
      · intro rest' hr
        exact absurd hr (ne_return_of_not_isBreak hbreak)

theorem passGap_space (rest : List Char) (m : Mark) (k : Bool) :
    passGap false false (' ' :: rest) m k = passGap false false rest m.next k := by
  rw [passGap]
  · simp [isBreak]
  · simp

theorem passGap_indentation {token : List Char} (htoken : StartsSolid token) (n : Nat) (m : Mark)
    (k : Bool) : passGap false false (indentation n ++ token) m k = (token, m.skip n, k) := by
  induction n generalizing m with
  | zero => simpa [Mark.skip] using passGap_solid htoken m k
  | succ n ih => rw [indentation_succ, List.cons_append, passGap_space, ih, Mark.next_skip]

namespace Cursor

variable {c : Cursor} {l n : Nat} {token : List Char}

/-- Behind a gap the token stands at a column, not above a line, and a key may start there. -/
def Lands (c : Cursor) (l n : Nat) (token : List Char) : Prop :=
  ∃ m : Mark, m.column = n ∧ l ≤ m.line ∧ c.pass false = ⟨token, m, true, {}⟩

theorem lands_of_token (htoken : StartsSolid token) {m : Mark} (hm : m.column = n)
    (hl : l ≤ m.line) :
    (⟨token, m, true, {}⟩ : Cursor).Lands l n token :=
  ⟨m, hm, hl, by simp [pass, passGap_solid htoken]⟩

theorem lands_of_newline (htoken : StartsSolid token) (m : Mark) (k : Bool) :
    (⟨'\n' :: (indentation n ++ token), m, k, {}⟩ : Cursor).Lands (m.line + 1) n token := by
  refine ⟨(m.newline 1).skip n, by simp [Mark.newline, Mark.skip], Nat.le_refl _, ?_⟩
  simp [pass, passGap, isBreak, passGap_indentation htoken]

theorem Lands.mono {l' : Nat} (hl : l' ≤ l) (h : c.Lands l n token) : c.Lands l' n token := by
  obtain ⟨m, hm, hline, hpass⟩ := h
  exact ⟨m, hm, Nat.le_trans hl hline, hpass⟩

end Cursor

/-! ## Scalars behind a colon -/

theorem readProperties_none {c : Cursor} (hrest : ∀ d ∈ c.rest.head?, d ≠ '&' ∧ d ≠ '!')
    (flow : Bool) (parent : Int) (fuel : Nat) :
    readProperties flow parent (fuel + 1) c = some ([], c) := by
  rw [readProperties]
  split
  · next s hs => exact absurd rfl (hrest '&' (by simp [hs])).1
  · next s hs => exact absurd rfl (hrest '!' (by simp [hs])).2
  · rfl

/-- A node without anchor and tag to the right of its collection. -/
theorem readBlockNode_placed {c c' : Cursor} (hpass : c.pass false = c')
    (hboundary : c'.atBoundary = false) (hdirective : c'.atDirective = false)
    (hblock : c'.atBlockScalar = false) (hproperty : ∀ d ∈ c'.rest.head?, d ≠ '&' ∧ d ≠ '!')
    {parent : Int} (hparent : parent < c'.mark.column) (list : Bool) (fuel : Nat) :
    readBlockNode (fuel + 1) parent list c = readPlaced fuel parent [] c' := by
  have hproperties := readProperties_none hproperty false parent c'.rest.length
  have hparent' : ¬ (c'.mark.column : Int) ≤ parent ∧ ¬ (c'.mark.column : Int) < parent ∧
      ¬ (c'.mark.column : Int) = parent := by omega
  rw [readBlockNode]
  simp [hpass, hdirective, hboundary, hblock, hparent', hproperties]

theorem readBlockNode_placed_cons {c : Cursor} {x : Char} {xs : List Char} {m : Mark} {k : Bool}
    (hpass : c.pass false = ⟨x :: xs, m, k, {}⟩) (hcolumn : 0 < m.column)
    (hsign : x ∉ ['&', '!', '|', '>']) {parent : Int} (hparent : parent < m.column) (list : Bool)
    (fuel : Nat) :
    readBlockNode (fuel + 1) parent list c = readPlaced fuel parent [] ⟨x :: xs, m, k, {}⟩ := by
  simp only [List.mem_cons, List.not_mem_nil, or_false, not_or] at hsign
  apply readBlockNode_placed hpass
  · simp [Cursor.atBoundary, atMarker_of_column hcolumn]
  · simp [Cursor.atDirective]
    omega
  · simp [Cursor.atBlockScalar, hsign]
  · rintro d ⟨⟩
    exact ⟨hsign.1, hsign.2.1⟩
  · exact hparent

/-- A node without anchor and tag that is no key, since none may start or its line has ended. -/
theorem readPlaced_leaf {c after : Cursor} (hdash : c.atDash = false)
    (hquestion : c.atQuestion false = false) (hcolon : c.atColon false = false) {parent : Int}
    {fuel : Nat} {node : Node} (hatom : readAtom fuel false parent c = some (node, after))
    (hnode : node.withProps {} = some node)
    (hkey : c.mark.line < (after.pass false).mark.line) :
    readPlaced (fuel + 1) parent [] c = some (node, after) := by
  have hnone : afterKey? false c.mark after = none := by
    have hline : ((after.pass false).mark.line == c.mark.line) = false := by
      rw [beq_eq_false_iff_ne]
      omega
    simp [afterKey?, hline]
  rw [readPlaced]
  cases c.keyOk <;>
    simp [hdash, hquestion, hcolon, hatom, hnone, Props.ofList?, hnode]

theorem readAtom_leaf {c : Cursor} (hopen : ∀ d ∈ c.rest.head?, d ≠ '[' ∧ d ≠ '\x7b') (fuel : Nat)
    (flow : Bool) (parent : Int) : readAtom (fuel + 1) flow parent c = readLeaf flow parent c := by
  rw [readAtom]
  split
  · next s hs => exact absurd rfl (hopen '[' (by simp [hs])).1
  · next s hs => exact absurd rfl (hopen '\x7b' (by simp [hs])).2
  · rfl

section Value

variable {parent n : Nat} {token : List Char} (htoken : StartsSolid token) {m : Mark}
  (hm : parent ≤ m.column) (k list : Bool) (fuel : Nat)

include htoken hm

theorem readBlockNode_plain (hn : n ≤ parent) {c : Char} {cs : List Char} (h : StandsPlain c cs) :
    ∃ after, readBlockNode (fuel + 3) parent list
      ⟨' ' :: c :: (cs ++ '\n' :: (indentation n ++ token)), m, k, {}⟩ =
        some (.scalar {} true (String.ofList (c :: cs)), after) ∧
          after.Lands (m.line + 1) n token := by
  have hcolumn : parent < m.next.column := Nat.lt_succ_of_le hm
  obtain ⟨m', hm', hl, hscan⟩ := h.scan_line htoken hn hcolumn
  have hmem := h.first_notMem
  simp only [List.mem_cons, List.not_mem_nil, or_false, not_or] at hmem
  obtain ⟨hdash, hquestion, hcolon⟩ := h.no_indicator ('\n' :: (indentation n ++ token)) m.next k
  have hstarts := h.startsPlain ('\n' :: (indentation n ++ token))
  generalize cs ++ '\n' :: (indentation n ++ token) = behind at *
  have hpass : Cursor.pass false ⟨' ' :: c :: behind, m, k, {}⟩ = ⟨c :: behind, m.next, k, {}⟩ := by
    simp [Cursor.pass, passGap_space, passGap_solid (h.startsSolid behind)]
  have hafter : Cursor.pass false ⟨token, m', true, {}⟩ = ⟨token, m', true, {}⟩ := by
    simp [Cursor.pass, passGap_solid htoken]
  refine ⟨⟨token, m', true, {}⟩, ?_, Cursor.lands_of_token htoken hm' hl⟩
  rw [readBlockNode_placed_cons hpass (by omega) (by simp [hmem]) (by omega)]
  apply readPlaced_leaf hdash hquestion hcolon
  · rw [readAtom_leaf (by rintro d ⟨⟩; simp [hmem]), readLeaf]
    simp [hmem, hstarts, hscan, Cursor.after]
  · rfl
  · rw [hafter]
    exact hl

/-- A node in quotes or brackets, behind which its line ends. -/
theorem readBlockNode_closed {q : Char} (hq : q ∈ ['\'', '"', '[', '\x7b']) (body : List Char)
    {node : Node} (hnode : node.withProps {} = some node) {m' : Mark} (hl : m.line ≤ m'.line)
    (hatom : readAtom (fuel + 1) false parent ⟨q :: body, m.next, k, {}⟩ =
      some (node, ⟨'\n' :: (indentation n ++ token), m', false, {}⟩)) :
    ∃ after, readBlockNode (fuel + 3) parent list ⟨' ' :: q :: body, m, k, {}⟩ =
      some (node, after) ∧ after.Lands (m.line + 1) n token := by
  have hcolumn : parent < m.next.column := Nat.lt_succ_of_le hm
  have hsigns := List.all_eq_true.mp
    (show ['\'', '"', '[', '\x7b'].all (fun q => !isSpaceOrTab q && !isBreak q &&
      decide (q ∉ ['#', '\uFEFF', '&', '!', '%', '|', '>', '-', '?', ':'])) from by decide) q hq
  simp only [Bool.and_eq_true, Bool.not_eq_true', decide_eq_true_eq] at hsigns
  obtain ⟨⟨hblank, hbreak⟩, hsign⟩ := hsigns
  simp only [List.mem_cons, List.not_mem_nil, or_false, not_or] at hsign
  have hsolid : StartsSolid (q :: body) := by
    rintro d ⟨⟩
    exact ⟨hblank, hbreak, hsign.1, hsign.2.1⟩
  have hpass : Cursor.pass false ⟨' ' :: q :: body, m, k, {}⟩ = ⟨q :: body, m.next, k, {}⟩ := by
    simp [Cursor.pass, passGap_space, passGap_solid hsolid]
  have hlands := Cursor.lands_of_newline (n := n) htoken m' false
  refine ⟨_, ?_, hlands.mono (Nat.succ_le_succ hl)⟩
  rw [readBlockNode_placed_cons hpass (by omega) (by simp [hsign]) (by omega)]
  apply readPlaced_leaf
  · simp [Cursor.atDash, hsign]
  · simp [Cursor.atQuestion, hsign]
  · simp [Cursor.atColon, hsign]
  · exact hatom
  · exact hnode
  · obtain ⟨m₁, -, hline, hpass'⟩ := hlands
    rw [hpass']
    exact Nat.lt_of_le_of_lt hl hline

theorem readBlockNode_literal {body : List Char} {text : List Char} {m' : Mark}
    (hm' : m'.column = n) (hl : m.line < m'.line)
    (hscan : scanBlock true parent body m.next.next = some ⟨text, token, m', false⟩) :
    ∃ after, readBlockNode (fuel + 1) parent list ⟨' ' :: '|' :: body, m, k, {}⟩ =
      some (.scalar {} false (String.ofList text), after) ∧ after.Lands (m.line + 1) n token := by
  have hcolumn : parent < m.next.column := Nat.lt_succ_of_le hm
  have hsolid : StartsSolid ('|' :: body) := by
    rintro d ⟨⟩
    decide
  have hpass : Cursor.pass false ⟨' ' :: '|' :: body, m, k, {}⟩ = ⟨'|' :: body, m.next, k, {}⟩ := by
    simp [Cursor.pass, passGap_space, passGap_solid hsolid]
  have hproperties := readProperties_none (c := ⟨'|' :: body, m.next, k, {}⟩)
    (by rintro d ⟨⟩; decide) false parent ('|' :: body).length
  rw [List.length_cons] at hproperties
  have hparent' : ¬ m.next.column ≤ parent ∧ ¬ m.next.column < parent := by omega
  refine ⟨⟨token, m', true, {}⟩, ?_, Cursor.lands_of_token htoken hm' hl⟩
  rw [readBlockNode]
  simp [hpass, Cursor.atDirective, Cursor.atBoundary, Cursor.atBlockScalar,
    atMarker_of_column (show 0 < m.next.column by omega), hparent', hproperties,
    readBlockScalar, hscan, Props.ofList?, Node.withProps, Cursor.after, Cursor.withKey]

/-- A text behind a colon or a dash is read back in whatever form it was written; it is a
plain scalar only in the plain form. -/
theorem readBlockNode_renderText (hn : n ≤ parent) (s : String) :
    ∃ after, readBlockNode (fuel + 3) parent list
      ⟨' ' :: (renderText (parent + 2) s ++ (indentation n ++ token)), m, k, {}⟩ =
        some (.scalar {} (form s == .plain) s, after) ∧ after.Lands (m.line + 1) n token := by
  cases hform : form s with
  | plain =>
      obtain ⟨c, cs, hchars, h⟩ := standsPlain_of_form hform
      obtain ⟨after, hread, hlands⟩ := readBlockNode_plain htoken hm k list fuel hn h
      refine ⟨after, ?_, hlands⟩
      have htext : String.ofList (c :: cs) = s := by rw [← hchars, String.ofList_toList]
      rw [htext] at hread
      simpa [renderText, hform, hchars] using hread
  | single =>
      obtain ⟨hfeed, hbreakBlank, hspecial⟩ := form_single hform
      obtain ⟨hblankBreak, hprint⟩ := special_eq_false hspecial
      have hquote : ('\n' :: (indentation n ++ token)).head? ≠ some '\'' := by simp
      obtain ⟨m', hl, -, hscan⟩ := scanSingle_rest (show 0 < parent + 2 by omega) hquote false true
        (m := m.next.next) (g := {}) (fun c hc => ⟨hprint c hc, by rintro rfl; exact hfeed hc⟩)
        hblankBreak hbreakBlank rfl (by simp) fun _ => ⟨by simp [Mark.next], .inl rfl⟩
      obtain ⟨after, hread, hlands⟩ := readBlockNode_closed (n := n) htoken hm k list fuel
        List.mem_cons_self
        (singleBody (parent + 2) false s.toList ++ '\'' :: '\n' :: (indentation n ++ token))
        (show (Node.scalar {} false s).withProps {} = _ from rfl) hl (by
          rw [readAtom_leaf (by rintro d ⟨⟩; decide)]
          simp [readLeaf, hscan, Cursor.after, Gap.fold])
      rw [show (Form.single == .plain) = false from rfl]
      exact ⟨after, by simpa [renderText, hform] using hread, hlands⟩
  | double =>
      have hscan := scanDouble_rest (.inl rfl) s.toList ('\n' :: (indentation n ++ token))
        (m := m.next.next) (by simp [Mark.next]) (g := {}) rfl
      generalize hlength : (s.toList.flatMap doubleChar).length + 1 = len at hscan
      have hl : m.line ≤ (m.next.next.skip len).line := Nat.le_refl _
      obtain ⟨after, hread, hlands⟩ := readBlockNode_closed (n := n) htoken hm k list fuel
        (q := '"') (by decide)
        (s.toList.flatMap doubleChar ++ '"' :: '\n' :: (indentation n ++ token))
        (show (Node.scalar {} false s).withProps {} = _ from rfl) hl (by
          rw [readAtom_leaf (by rintro d ⟨⟩; decide)]
          simp [readLeaf, hscan, Cursor.after, Gap.fold])
      rw [show (Form.double == .plain) = false from rfl]
      exact ⟨after, by simpa [renderText, hform] using hread, hlands⟩
  | literal =>
      obtain ⟨body, m', hbody, hm', hl, hscan⟩ := scanBlock_renderText hform htoken hn m.next.next
      obtain ⟨after, hread, hlands⟩ :=
        readBlockNode_literal htoken hm k list (fuel + 2) hm' hl hscan
      refine ⟨after, ?_, hlands⟩
      rw [show (Form.literal == .plain) = false from rfl, hbody, List.cons_append]
      rwa [String.ofList_toList] at hread

end Value

end PartDepot.Yaml
