import PartDepot.Proofs.Scalars

/-!
# Texts read back from blocks of lines

A block holds the lines of a text at an indentation that its first line shows, or that its header
gives; how many breaks stand at its end is a hint of the header too.
-/

namespace PartDepot.Yaml

/-! ## What the form of a text says about it -/

theorem special_eq_false {chars : List Char} (h : (shape chars).special = false) :
    hasPair (· == ' ') isBreak chars = false ∧ ∀ c ∈ chars, isPrintable c = true := by
  have hparts : hasPair (· == ' ') isBreak chars = false ∧ chars.any (!isPrintable ·) = false := by
    simpa only [shape, Bool.or_eq_false_iff] using h
  exact ⟨hparts.1, by simpa using hparts.2⟩

section Form

variable {s : String}

theorem form_literal (h : form s = .literal) :
    '\n' ∈ s.toList ∧ ∀ c ∈ s.toList, isPrintable c = true := by
  unfold form at h
  by_cases hfeed : s.toList.contains '\n' = true
  · by_cases hdouble : ((shape s.toList).endsBlank || (shape s.toList).special) = true
    · simp only [if_pos hfeed, if_pos hdouble] at h
      simp at h
    · have hspecial : (shape s.toList).special = false := by
        simp only [Bool.or_eq_true, not_or, Bool.not_eq_true] at hdouble
        exact hdouble.2
      exact ⟨by simpa using hfeed, (special_eq_false hspecial).2⟩
  · simp only [if_neg hfeed] at h
    split at h
    · split at h <;> simp at h
    · split at h
      · split at h <;> simp at h
      · simp at h

theorem form_single (h : form s = .single) :
    '\n' ∉ s.toList ∧ (shape s.toList).breakBlank = false ∧ (shape s.toList).special = false := by
  unfold form at h
  by_cases hfeed : s.toList.contains '\n' = true
  · simp only [if_pos hfeed] at h
    split at h <;> simp at h
  · have hquoted : ¬((shape s.toList).breakBlank || (shape s.toList).special) = true := by
      intro hdouble
      simp only [if_neg hfeed, if_pos hdouble] at h
      split at h
      · simp at h
      · split at h <;> simp at h
    simp only [Bool.or_eq_true, not_or, Bool.not_eq_true] at hquoted
    exact ⟨by simpa using hfeed, hquoted⟩

theorem form_plain (h : form s = .plain) :
    resolve s = .text ∧ (shape s.toList).multiline = false ∧ (shape s.toList).indicators = false ∧
      (shape s.toList).outerGap = false ∧ (shape s.toList).special = false := by
  unfold form at h
  by_cases hfeed : s.toList.contains '\n' = true
  · simp only [if_pos hfeed] at h
    split at h <;> simp at h
  · simp only [if_neg hfeed] at h
    split at h
    · split at h <;> simp at h
    · next hresolve =>
      split at h
      · split at h <;> simp at h
      · next hshape =>
        simp only [Bool.or_eq_true, not_or, Bool.not_eq_true,
          bne_eq_false_iff_eq] at hresolve hshape
        exact ⟨hresolve.1, hshape.1.1.1.1, hshape.1.1.1.2, hshape.1.1.2, hshape.2⟩

end Form

/-! ## Blocks of lines -/

section Block

variable (indent : Nat)

theorem blockLines_inLine {c : Char} (hc : isPrintable c = true) (rest : List Char) (m : Mark)
    (g : BlockGap) :
    blockLines true indent true (c :: rest) m g =
      if isBreak c then
        blockLines true indent false rest (m.newline 1) { g with lead := [c], trail := [] }
      else (blockLines true indent true rest m.next g).map fun (r, e) => (r.prepend [c], e) := by
  have hreturn := ne_return_of_isPrintable hc
  rw [blockLines]
  · split
    · next hbreak => rw [keptBreak_of_isPrintable hc hbreak]
    · rfl
  · intro rest' hr
    exact absurd hr hreturn

theorem blockLines_indentation (n : Nat) (rest : List Char) {m : Mark} (hn : m.column + n ≤ indent)
    (g : BlockGap) :
    blockLines true indent false (indentation n ++ rest) m g =
      blockLines true indent false rest (m.skip n) g := by
  induction n generalizing m with
  | zero => simp [Mark.skip]
  | succ n ih =>
      have hnext : m.next.column + n ≤ indent := by
        simp only [Mark.next]
        omega
      have hcolumn : m.column < indent := by omega
      rw [indentation_succ, List.cons_append, blockLines]
      · rw [if_pos (by simpa using hcolumn), ih hnext, Mark.next_skip]
      · simp

theorem blockLines_emptyLine {c : Char} (hc : isPrintable c = true) (hbreak : isBreak c = true)
    (rest : List Char) (m : Mark) (g : BlockGap) :
    blockLines true indent false (c :: rest) m g =
      blockLines true indent false rest (m.newline 1) { g with trail := g.trail ++ [c] } := by
  have hreturn := ne_return_of_isPrintable hc
  have hspace : c ≠ ' ' := by
    rintro rfl
    revert hbreak
    decide
  rw [blockLines]
  · simp [hspace, ne_tab_of_isPrintable hc, hbreak, keptBreak_of_isPrintable hc hbreak]
  · intro rest' hr
    exact absurd hr hreturn

theorem blockLines_lineStart {c : Char} (hc : isPrintable c = true) (hbreak : isBreak c = false)
    (rest : List Char) {m : Mark} (hcolumn : m.column = indent) (g : BlockGap) :
    ∃ e, blockLines true indent false (c :: rest) m g =
      (blockLines true indent true rest m.next e).map
        fun (r, e) => (r.prepend (g.lead ++ g.trail ++ [c]), e) := by
  have hreturn := ne_return_of_isPrintable hc
  refine ⟨{ blank := isSpaceOrTab c }, ?_⟩
  rw [blockLines]
  · simp [hbreak, hcolumn, BlockGap.fold]
  · intro rest' hr
    exact absurd hr hreturn

/-- The lines of a block up to the last character that is no break. -/
theorem blockLines_literalBody {cs : List Char} (inLine : Bool) {m : Mark} {g : BlockGap}
    (hprint : ∀ c ∈ cs, isPrintable c = true) (hnil : cs ≠ [])
    (hlast : ∀ c ∈ cs.getLast?, isBreak c = false) (hcolumn : inLine = false → m.column = 0)
    (rest : List Char) :
    ∃ m' e, m.line ≤ m'.line ∧
      blockLines true indent inLine (literalBody indent (!inLine) cs ++ rest) m g =
      (blockLines true indent true rest m' e).map
        fun (r, e) => (r.prepend ((if inLine then [] else g.lead ++ g.trail) ++ cs), e) := by
  induction cs generalizing inLine m g with
  | nil => exact absurd rfl hnil
  | cons c cs ih =>
      have hc := hprint c List.mem_cons_self
      have hprint' : ∀ c ∈ cs, isPrintable c = true :=
        fun c hc => hprint c (List.mem_cons_of_mem _ hc)
      have hlast' (h : cs ≠ []) : ∀ c ∈ cs.getLast?, isBreak c = false := by
        rwa [List.getLast?_cons_of_ne_nil h] at hlast
      rw [literalBody]
      by_cases hbreak : isBreak c = true
      · have hcs : cs ≠ [] := by
          rintro rfl
          simp [hlast c rfl] at hbreak
        rw [if_pos hbreak, List.cons_append]
        cases inLine with
        | true =>
            obtain ⟨m', e, hl, h⟩ := ih false (m := m.newline 1)
              (g := { g with lead := [c], trail := [] }) hprint' hcs (hlast' hcs) (fun _ => rfl)
            rw [blockLines_inLine indent hc, if_pos hbreak]
            exact ⟨m', e, Nat.le_of_succ_le hl, by simpa using h⟩
        | false =>
            obtain ⟨m', e, hl, h⟩ := ih false (m := m.newline 1)
              (g := { g with trail := g.trail ++ [c] }) hprint' hcs (hlast' hcs) (fun _ => rfl)
            rw [blockLines_emptyLine indent hc hbreak]
            exact ⟨m', e, Nat.le_of_succ_le hl, by simpa using h⟩
      · -- Inside a line the rest of the text is read, whatever gap came before the line.
        have hrest (m : Mark) (g : BlockGap) : ∃ m' e, m.line ≤ m'.line ∧
            blockLines true indent true (literalBody indent false cs ++ rest) m g =
              (blockLines true indent true rest m' e).map fun (r, e) => (r.prepend cs, e) := by
          by_cases hcs : cs = []
          · subst hcs
            exact ⟨m, g, Nat.le_refl _, by simp [literalBody, Scanned.prepend]⟩
          · simpa using ih true (m := m) (g := g) hprint' hcs (hlast' hcs) (by simp)
        have hbreak' : isBreak c = false := by simpa using hbreak
        rw [if_neg hbreak]
        cases inLine with
        | true =>
            obtain ⟨m', e, hl, h⟩ := hrest m.next g
            refine ⟨m', e, hl, ?_⟩
            rw [Bool.not_true, if_neg (by simp), List.nil_append, List.cons_append,
              blockLines_inLine indent hc, if_neg hbreak, h]
            simp [Function.comp_def, Scanned.prepend_prepend]
        | false =>
            have hzero := hcolumn rfl
            obtain ⟨e', hstart⟩ := blockLines_lineStart indent hc hbreak'
              (literalBody indent false cs ++ rest) (m := m.skip indent)
              (by simp [Mark.skip, hzero]) g
            obtain ⟨m', e, hl, h⟩ := hrest (m.skip indent).next e'
            refine ⟨m', e, hl, ?_⟩
            rw [Bool.not_false, if_pos rfl, List.append_assoc, List.cons_append,
              blockLines_indentation indent _ _ (by omega), hstart, h]
            simp [Function.comp_def, Scanned.prepend_prepend]

theorem literalBody_breaks (indent : Nat) (broken : Bool) {bs : List Char}
    (hbs : ∀ b ∈ bs, isBreak b = true) : literalBody indent broken bs = bs := by
  induction bs generalizing broken with
  | nil => rfl
  | cons b bs ih =>
      rw [literalBody, if_pos (hbs b List.mem_cons_self),
        ih true fun b hb => hbs b (List.mem_cons_of_mem _ hb)]

theorem literalBody_append (indent : Nat) {broken : Bool} {front bs : List Char}
    (hfront : front ≠ []) (hlast : ∀ c ∈ front.getLast?, isBreak c = false)
    (hbs : ∀ b ∈ bs, isBreak b = true) :
    literalBody indent broken (front ++ bs) = literalBody indent broken front ++ bs := by
  induction front generalizing broken with
  | nil => exact absurd rfl hfront
  | cons c cs ih =>
      by_cases hcs : cs = []
      · subst hcs
        have hc := hlast c rfl
        simp [literalBody, hc, literalBody_breaks _ _ hbs]
      · have hlast' : ∀ c ∈ cs.getLast?, isBreak c = false := by
          rwa [List.getLast?_cons_of_ne_nil hcs] at hlast
        rw [List.cons_append, literalBody, literalBody]
        split
        · rw [ih hcs hlast', List.cons_append]
        · rw [ih hcs hlast', List.append_assoc, List.cons_append]

section Tail

variable {token : List Char} (htoken : StartsSolid token) {n : Nat} (hn : n < indent)

include htoken hn

/-- Less indentation than that of the block ends it. -/
theorem blockLines_outdent {m : Mark} (hcolumn : m.column = 0) (g : BlockGap) :
    blockLines true indent false (indentation n ++ token) m g =
      some (⟨[], token, m.skip n, false⟩, g) := by
  rw [blockLines_indentation indent n token (by omega)]
  cases token with
  | nil => simp [blockLines]
  | cons c rest =>
      obtain ⟨hblank, hbreak, -, -⟩ := htoken.cons
      have hne : c ≠ ' ' ∧ c ≠ '\t' := by simpa [isSpaceOrTab] using hblank
      have hcol : (m.skip n).column ≠ indent := by
        simp only [Mark.skip]
        omega
      rw [blockLines]
      · simp [hne, hbreak, hcol]
      · intro rest' hr
        exact absurd hr (ne_return_of_not_isBreak hbreak)

theorem blockLines_emptyLines {bs : List Char}
    (hbs : ∀ b ∈ bs, isPrintable b = true ∧ isBreak b = true) {m : Mark} (hcolumn : m.column = 0)
    (g : BlockGap) :
    ∃ m', m'.column = n ∧ m.line ≤ m'.line ∧
      blockLines true indent false (bs ++ (indentation n ++ token)) m g =
      some (⟨[], token, m', false⟩, { g with trail := g.trail ++ bs }) := by
  induction bs generalizing m g with
  | nil =>
      refine ⟨m.skip n, by simp [Mark.skip, hcolumn], Nat.le_refl _, ?_⟩
      simp [blockLines_outdent indent htoken hn hcolumn]
  | cons b bs ih =>
      obtain ⟨hb, hbreak⟩ := hbs b List.mem_cons_self
      obtain ⟨m', hm', hl, h⟩ := ih (fun b hb => hbs b (List.mem_cons_of_mem _ hb))
        (m := m.newline 1) rfl { g with trail := g.trail ++ [b] }
      refine ⟨m', hm', Nat.le_of_succ_le hl, ?_⟩
      rw [List.cons_append, blockLines_emptyLine indent hb hbreak, h]
      simp

/-- All lines of a block: the text up to its last character that is no break, and the breaks behind
that as what is left to chomp. -/
theorem blockLines_block {front bs : List Char} (hprint : ∀ c ∈ front ++ bs, isPrintable c = true)
    (hlast : ∀ c ∈ front.getLast?, isBreak c = false) (hbs : ∀ b ∈ bs, isBreak b = true)
    (hnil : bs ≠ []) {m : Mark} (hcolumn : m.column = 0) :
    ∃ m' e, m'.column = n ∧ m.line ≤ m'.line ∧ e.lead ++ e.trail = bs ∧
      (front ≠ [] → e.lead = bs.take 1) ∧
      blockLines true indent false
        (literalBody indent true (front ++ bs) ++ (indentation n ++ token)) m {} =
        some (⟨front, token, m', false⟩, e) := by
  have hbreaks : ∀ b ∈ bs, isPrintable b = true ∧ isBreak b = true :=
    fun b hb => ⟨hprint b (List.mem_append_right _ hb), hbs b hb⟩
  by_cases hfront : front = []
  · subst hfront
    obtain ⟨m', hm', hl, h⟩ := blockLines_emptyLines indent htoken hn hbreaks hcolumn {}
    refine ⟨m', { trail := bs }, hm', hl, rfl, fun h => absurd rfl h, ?_⟩
    rw [List.nil_append, literalBody_breaks _ _ hbs, h]
    rfl
  · obtain ⟨m₁, e, hl₁, h⟩ := blockLines_literalBody indent false (m := m) (g := {})
      (fun c hc => hprint c (List.mem_append_left _ hc)) hfront hlast (fun _ => hcolumn)
      (bs ++ (indentation n ++ token))
    cases bs with
    | nil => exact absurd rfl hnil
    | cons b bs =>
        obtain ⟨hb, hbreak⟩ := hbreaks b List.mem_cons_self
        obtain ⟨m', hm', hl, h'⟩ := blockLines_emptyLines indent htoken hn
          (fun b hb => hbreaks b (List.mem_cons_of_mem _ hb)) (m := m₁.newline 1) rfl
          { e with lead := [b], trail := [] }
        refine ⟨m', { e with lead := [b], trail := bs }, hm',
          Nat.le_trans hl₁ (Nat.le_of_succ_le hl), rfl, fun _ => rfl, ?_⟩
        rw [Bool.not_false] at h
        rw [literalBody_append _ hfront hlast hbs, List.append_assoc, h, List.cons_append,
          blockLines_inLine indent hb, if_pos hbreak, h']
        simp [Scanned.prepend]

end Tail

theorem leadingLines_indentation (n : Nat) {c : Char} (hspace : c ≠ ' ') (htab : c ≠ '\t')
    (hbreak : isBreak c = false) (rest : List Char) (m : Mark) :
    leadingLines 0 (indentation n ++ c :: rest) m =
      some ([], m.column + n, c :: rest, m.skip n) := by
  induction n generalizing m with
  | zero =>
      have hreturn := ne_return_of_not_isBreak hbreak
      rw [indentation_zero, List.nil_append, leadingLines]
      · simp [hspace, htab, hbreak, Mark.skip]
      · intro rest' hr
        exact absurd hr hreturn
  | succ n ih =>
      rw [indentation_succ, List.cons_append, leadingLines]
      · rw [if_pos rfl, ih, Mark.next_skip]
        simp [Mark.next]
        omega
      · simp

end Block

/-- A block whose header is read: the hints in it say what is left of the breaks at the end, and the
indentation unless the first line shows it. -/
theorem scanBlock_of_header {parent n : Nat} {token : List Char} (htoken : StartsSolid token)
    (hn : n ≤ parent) {front bs : List Char} (hprint : ∀ c ∈ front ++ bs, isPrintable c = true)
    (hlast : ∀ c ∈ front.getLast?, isBreak c = false) (hbs : ∀ b ∈ bs, isBreak b = true)
    (hnil : bs ≠ []) {s : List Char} {m : Mark} {h : BlockHeader}
    (hheader : blockHeader s m = some h)
    (hrest : h.rest = literalBody (parent + 2) true (front ++ bs) ++ (indentation n ++ token))
    (hcolumn : h.mark.column = 0)
    (hincrement : h.increment = some 2 ∨
      h.increment = none ∧ ∃ c cs, front = c :: cs ∧ c ≠ ' ' ∧ isBreak c = false) {text : List Char}
    (htext : h.chomp = .strip ∧ text = front ∨
      h.chomp = .clip ∧ front ≠ [] ∧ text = front ++ bs.take 1 ∨
      h.chomp = .keep ∧ text = front ++ bs) :
    ∃ m', m'.column = n ∧ h.mark.line ≤ m'.line ∧
      scanBlock true parent s m = some ⟨text, token, m', false⟩ := by
  obtain ⟨m', e, hm', hl, hbreaks, hlead, hlines⟩ := blockLines_block (parent + 2) (n := n)
    htoken (by omega) hprint hlast hbs hnil hcolumn
  refine ⟨m', hm', hl, ?_⟩
  rw [scanBlock, hheader]
  rcases hincrement with hgiven | ⟨hnone, c, cs, rfl, hspace, hbreak⟩
  · obtain ⟨hc, rfl⟩ | ⟨hc, hfront, rfl⟩ | ⟨hc, rfl⟩ := htext
    · simp [hgiven, hrest, hlines, hc]
    · simp [hgiven, hrest, hlines, hc, hlead hfront]
    · simp [hgiven, hrest, hlines, hc, hbreaks]
  · have htab : c ≠ '\t' := ne_tab_of_isPrintable (hprint c (by simp))
    have hbody : literalBody (parent + 2) true (c :: cs ++ bs) ++ (indentation n ++ token) =
        indentation (parent + 2) ++ c :: (literalBody (parent + 2) false (cs ++ bs) ++
          (indentation n ++ token)) := by
      simp [literalBody, hbreak]
    have hdeepest : max (h.mark.column + (parent + 2)) (max ((parent : Int) + 1) 1).toNat =
        parent + 2 := by omega
    rw [hbody, blockLines_indentation _ _ _ (by omega)] at hlines
    simp only [hnone, hrest.trans hbody, leadingLines_indentation _ hspace htab hbreak, hdeepest,
      hlines, Option.bind_eq_bind, Option.bind_some]
    obtain ⟨hc, rfl⟩ | ⟨hc, hfront, rfl⟩ | ⟨hc, rfl⟩ := htext
    · simp [hc]
    · simp [hc, hlead hfront]
    · simp [hc, hbreaks]

/-- A list of characters up to its last one that is no break, and the breaks behind that. -/
theorem exists_breaks (chars : List Char) : ∃ front bs, chars = front ++ bs ∧
    (∀ c ∈ front.getLast?, isBreak c = false) ∧ ∀ b ∈ bs, isBreak b = true := by
  refine ⟨(chars.reverse.dropWhile isBreak).reverse, (chars.reverse.takeWhile isBreak).reverse, ?_,
    ?_, ?_⟩
  · rw [← List.reverse_append, List.takeWhile_append_dropWhile, List.reverse_reverse]
  · intro c hc
    rw [List.getLast?_reverse] at hc
    have := List.head?_dropWhile_not isBreak chars.reverse
    rw [Option.mem_def.mp hc] at this
    simpa using this
  · intro b hb
    exact List.all_eq_true.mp List.all_takeWhile b (List.mem_reverse.mp hb)

/-- The hints behind the indicator of a block: whether the first line shows the indentation, and how
many breaks stand at the end. -/
theorem blockHints_eq {front bs : List Char} (hnil : front ++ bs ≠ [])
    (hlast : ∀ c ∈ front.getLast?, isBreak c = false) (hbs : ∀ b ∈ bs, isBreak b = true) :
    ∃ start finish, blockHints (front ++ bs) = start ++ finish ∧
      (start = ['2'] ∨ start = [] ∧ ∃ c cs, front = c :: cs ∧ c ≠ ' ' ∧ isBreak c = false) ∧
      (finish = ['-'] ∧ bs = [] ∨ finish = [] ∧ front ≠ [] ∧ (∃ b, bs = [b]) ∨
        finish = ['+'] ∧ bs ≠ []) := by
  refine ⟨_, _, rfl, ?_, ?_⟩
  · cases front with
    | nil =>
        cases bs with
        | nil => exact absurd rfl hnil
        | cons b bs => exact .inl (by simp [hbs b List.mem_cons_self])
    | cons c cs =>
        by_cases hc : (c == ' ' || isBreak c) = true
        · exact .inl (if_pos hc)
        · refine .inr ⟨by simpa using hc, c, cs, rfl, ?_⟩
          simpa using hc
  · have hend {c : Char} {cs : List Char} (hfront : front.reverse = c :: cs) :
        isBreak c = false := by
      apply hlast c
      rw [List.getLast?_eq_head?_reverse, hfront]
      rfl
    rw [List.reverse_append]
    cases hback : bs.reverse with
    | nil =>
        have hempty : bs = [] := by simpa using hback
        cases hfront : front.reverse with
        | nil => simp_all
        | cons c cs => exact .inl ⟨by simp [hend hfront], hempty⟩
    | cons b rest =>
        have hmem : ∀ c ∈ b :: rest, isBreak c = true := fun c hc =>
          hbs c (List.mem_reverse.mp (by rwa [hback]))
        have hbsne : bs ≠ [] := by
          rintro rfl
          simp at hback
        have hb := hmem b List.mem_cons_self
        cases rest with
        | cons b' rest =>
            have hb' := hmem b' (by simp)
            exact .inr (.inr ⟨by simp [hb, hb'], hbsne⟩)
        | nil =>
            cases hfront : front.reverse with
            | nil => exact .inr (.inr ⟨by simp [hb], hbsne⟩)
            | cons c cs =>
                refine .inr (.inl ⟨by simp [hb, hend hfront], ?_, b, ?_⟩)
                · rintro rfl
                  simp at hfront
                · have := congrArg List.reverse hback
                  simpa using this

theorem blockHeader_hints {start finish : List Char} (hstart : start = ['2'] ∨ start = [])
    (hfinish : finish = ['-'] ∨ finish = [] ∨ finish = ['+']) (rest : List Char) (m : Mark) :
    ∃ h, blockHeader (start ++ finish ++ '\n' :: rest) m = some h ∧ h.rest = rest ∧
      h.mark.column = 0 ∧ h.mark.line = m.line + 1 ∧
      (start = ['2'] → h.increment = some 2) ∧ (start = [] → h.increment = none) ∧
      (finish = ['-'] → h.chomp = .strip) ∧ (finish = [] → h.chomp = .clip) ∧
      (finish = ['+'] → h.chomp = .keep) := by
  rcases hstart with rfl | rfl <;> rcases hfinish with rfl | rfl | rfl <;>
    exact ⟨_, rfl, rfl, rfl, rfl, by simp⟩

/-- The spelling of a text as a block: hints behind the indicator, the text up to its last
character that is no break, and the breaks behind it, of which the text has as many as the
hint `finish` says. -/
structure BlockText (indent : Nat) (s : String) (start finish front breaks : List Char) : Prop where
  start_hint : start = ['2'] ∨ start = [] ∧ ∃ c cs, front = c :: cs ∧ c ≠ ' ' ∧ isBreak c = false
  finish_hint : finish = ['-'] ∧ s.toList = front ∨
    finish = [] ∧ front ≠ [] ∧ s.toList = front ++ breaks.take 1 ∨
      finish = ['+'] ∧ s.toList = front ++ breaks
  front_end : ∀ c ∈ front.getLast?, isBreak c = false
  breaks_break : ∀ b ∈ breaks, isBreak b = true
  breaks_ne_nil : breaks ≠ []
  printable : ∀ c ∈ front ++ breaks, isPrintable c = true
  text : renderText indent s =
    '|' :: (start ++ finish ++ '\n' :: literalBody indent true (front ++ breaks))

/-- A text in block form without a break at its end gets one. -/
theorem renderText_closed {s : String} (hform : form s = .literal)
    (hend : ∀ c ∈ s.toList.getLast?, isBreak c = false) (indent : Nat) :
    renderText indent s =
      '|' :: (blockHints s.toList ++ '\n' :: literalBody indent true (s.toList ++ ['\n'])) := by
  have hfeed := (form_literal hform).1
  have hnil := List.ne_nil_of_mem hfeed
  have hlast : s.toList.getLast?.any isBreak = false := by
    rw [List.getLast?_eq_some_getLast hnil]
    exact hend _ (List.getLast?_eq_some_getLast hnil)
  have hnewline : isBreak '\n' = true := by decide
  rw [literalBody_append _ hnil hend (by simp [hnewline])]
  simp [renderText, hform, hlast]

theorem exists_blockText {s : String} (hform : form s = .literal) (indent : Nat) :
    ∃ start finish front breaks, BlockText indent s start finish front breaks := by
  obtain ⟨hfeed, hprint⟩ := form_literal hform
  obtain ⟨front, bs, hchars, hlast, hbs⟩ := exists_breaks s.toList
  have hnil : front ++ bs ≠ [] := by
    rw [← hchars]
    exact List.ne_nil_of_mem hfeed
  obtain ⟨start, finish, hhints, hstart, hfinish⟩ := blockHints_eq hnil hlast hbs
  rw [← hchars] at hhints
  by_cases hempty : bs = []
  · subst hempty
    rw [List.append_nil] at hchars
    have hnewline : isBreak '\n' = true ∧ isPrintable '\n' = true := by decide
    have hstrip : finish = ['-'] := by
      rcases hfinish with ⟨h, -⟩ | ⟨-, -, b, hb⟩ | ⟨-, h⟩
      · exact h
      · cases hb
      · exact absurd rfl h
    refine ⟨start, finish, front, ['\n'], hstart, .inl ⟨hstrip, hchars⟩, hlast,
      by simp [hnewline.1], by simp, fun c hc => ?_, ?_⟩
    · rcases List.mem_append.mp hc with hc | hc
      · exact hprint c (hchars ▸ hc)
      · rw [List.mem_singleton.mp hc]
        exact hnewline.2
    · rw [renderText_closed hform (hchars ▸ hlast), hhints, hchars]
  · have hend : s.toList.getLast?.any isBreak = true := by
      rw [hchars, List.getLast?_append, List.getLast?_eq_some_getLast hempty, Option.some_or]
      exact hbs _ (List.getLast_mem hempty)
    refine ⟨start, finish, front, bs, hstart, .inr ?_, hlast, hbs, hempty, by rwa [← hchars], ?_⟩
    · rcases hfinish with ⟨-, h⟩ | ⟨h, hfront, b, rfl⟩ | ⟨h, -⟩
      · exact absurd h hempty
      · exact .inl ⟨h, hfront, hchars⟩
      · exact .inr ⟨h, hchars⟩
    · simp [renderText, hform, hend, hhints, ← hchars]

/-- A text written as a block is read back from behind the indicator. -/
theorem scanBlock_renderText {s : String} (hform : form s = .literal) {parent n : Nat}
    {token : List Char} (htoken : StartsSolid token) (hn : n ≤ parent) (m : Mark) :
    ∃ body m', renderText (parent + 2) s = '|' :: body ∧ m'.column = n ∧ m.line < m'.line ∧
      scanBlock true parent (body ++ (indentation n ++ token)) m =
        some ⟨s.toList, token, m', false⟩ := by
  obtain ⟨start, finish, front, bs, hblock⟩ := exists_blockText hform (parent + 2)
  obtain ⟨h, hheader, hrest, hcolumn, hline, hgiven, hnone, hstrip, hclip, hkeep⟩ :=
    blockHeader_hints (hblock.start_hint.imp_right And.left)
    (hblock.finish_hint.imp And.left (Or.imp And.left And.left))
    (literalBody (parent + 2) true (front ++ bs) ++ (indentation n ++ token)) m
  obtain ⟨m', hm', hl, hscan⟩ := scanBlock_of_header htoken hn hblock.printable hblock.front_end
    hblock.breaks_break hblock.breaks_ne_nil hheader hrest hcolumn
    (hblock.start_hint.imp hgiven fun h => ⟨hnone h.1, h.2⟩)
    (hblock.finish_hint.imp (And.imp_left hstrip)
      (Or.imp (And.imp_left hclip) (And.imp_left hkeep)))
  refine ⟨_, m', hblock.text, hm', by omega, ?_⟩
  simpa using hscan

end PartDepot.Yaml
