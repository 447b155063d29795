import Mathlib.Algebra.Group.Nat.Defs
import Mathlib.Logic.Basic
import PartDepot.Yaml.Scalar
import PartDepot.Yaml.Writer

/-!
# Texts read back from their forms

Each of the four forms in which a text can be written is read back as the text, whatever follows.
-/

namespace PartDepot.Yaml

/-! ## Characters -/

section Printable

variable {c : Char} (h : isPrintable c = true)

include h

theorem ne_tab_of_isPrintable : c ≠ '\t' := by
  rintro rfl
  revert h
  decide

theorem ne_return_of_isPrintable : c ≠ '\r' := by
  rintro rfl
  revert h
  decide

theorem isBreak_iff_of_isPrintable : isBreak c = true ↔ c = '\n' ∨ c = '\u2028' ∨ c = '\u2029' := by
  have hreturn := ne_return_of_isPrintable h
  have hnext : c ≠ '\u0085' := by
    rintro rfl
    revert h
    decide
  simp [isBreak, hreturn, hnext, or_assoc]

theorem isSpaceOrTab_iff_of_isPrintable : isSpaceOrTab c = true ↔ c = ' ' := by
  simp [isSpaceOrTab, ne_tab_of_isPrintable h]

end Printable

theorem not_isBreak_space : isBreak ' ' = false := by decide

/-! ## Positions -/

theorem Mark.next_skip (m : Mark) (n : Nat) : m.next.skip n = m.skip (n + 1) := by
  simp only [Mark.next, Mark.skip, Mark.mk.injEq, true_and]
  omega

theorem Mark.skip_next (m : Mark) (n : Nat) : (m.skip n).next = m.skip (n + 1) := rfl

theorem Mark.skip_skip (m : Mark) (a b : Nat) : (m.skip a).skip b = m.skip (a + b) := by
  simp only [Mark.skip, Mark.mk.injEq, true_and]
  omega

theorem atMarker_of_column {m : Mark} (hcolumn : 0 < m.column) (s : List Char) :
    atMarker s m = false := by
  have hne : (m.column == 0) = false := by
    rw [beq_eq_false_iff_ne]
    omega
  simp [atMarker, hne]

/-! ## Plain -/

theorem Scanned.prepend_prepend (a b : List Char) (r : Scanned) :
    (r.prepend b).prepend a = r.prepend (a ++ b) := by
  simp [Scanned.prepend]

section Plain

variable {indent : Int} {word : Bool} {c : Char} {rest : List Char} {m : Mark} {g : Gap}

theorem scanPlain_nil (flow : Bool) :
    scanPlain flow indent word [] m g = some ⟨[], [], m, g.broken⟩ := rfl

theorem scanPlain_cons (hc : c ≠ '\r') (flow : Bool) :
    scanPlain flow indent word (c :: rest) m g =
      if isBreak c then scanPlain flow indent false rest (m.newline 1) (g.addBreak (keptBreak c))
      else if isSpaceOrTab c then
        if c = '\t' && g.broken && (m.column : Int) < indent then none
        else scanPlain flow indent false rest m.next (g.addBlank c)
      else if !word &&
          ((!flow && (m.column : Int) < indent) || atMarker (c :: rest) m || c = '#') then
        some ⟨[], c :: rest, m, g.broken⟩
      else if c = ':' && isGap rest.head? then some ⟨[], c :: rest, m, g.broken⟩
      else if flow && c = ':' && rest.head?.any (fun d => isFlowEnd d || d == '?') then none
      else if flow && isFlowEnd c then some ⟨[], c :: rest, m, g.broken⟩
      else (scanPlain flow indent true rest m.next {}).map (·.prepend (g.fold ++ [c])) := by
  rw [scanPlain]
  intro rest' hr
  exact absurd hr hc

end Plain

/-- The text is at an end, or goes on with a sign that no reader passes as a gap. -/
def StartsSolid (s : List Char) : Prop :=
  ∀ c ∈ s.head?, isSpaceOrTab c = false ∧ isBreak c = false ∧ c ≠ '#' ∧ c ≠ '\uFEFF'

theorem StartsSolid.cons {c : Char} {rest : List Char} (h : StartsSolid (c :: rest)) :
    isSpaceOrTab c = false ∧ isBreak c = false ∧ c ≠ '#' ∧ c ≠ '\uFEFF' := h c rfl

theorem ne_return_of_not_isBreak {c : Char} (h : isBreak c = false) : c ≠ '\r' := by
  rintro rfl
  revert h
  decide

@[simp]
theorem indentation_zero : indentation 0 = [] := rfl

@[simp]
theorem indentation_succ (n : Nat) : indentation (n + 1) = ' ' :: indentation n := rfl

/-- Behind a break, less indentation than asked for ends a plain scalar. -/
theorem scanPlain_outdent {indent : Int} {token : List Char} (htoken : StartsSolid token)
    {n : Nat} {m : Mark} (hn : ((m.column + n : Nat) : Int) < indent) {g : Gap}
    (hg : g.broken = true) :
    scanPlain false indent false (indentation n ++ token) m g =
      some ⟨[], token, m.skip n, true⟩ := by
  induction n generalizing m with
  | zero =>
      cases token with
      | nil => simp [scanPlain_nil, hg, Mark.skip]
      | cons c rest =>
          obtain ⟨hblank, hbreak, -, -⟩ := htoken.cons
          have hcolumn : (m.column : Int) < indent := by simpa using hn
          rw [indentation_zero, List.nil_append, scanPlain_cons (ne_return_of_not_isBreak hbreak)]
          simp [hbreak, hblank, hcolumn, hg, Mark.skip]
  | succ n ih =>
      have hnext : ((m.next.column + n : Nat) : Int) < indent := by
        simp only [Mark.next]
        omega
      rw [indentation_succ, List.cons_append, scanPlain_cons (by decide)]
      have hblank : g.addBlank ' ' = g := by simp [Gap.addBlank, hg]
      have hrest := ih hnext
      rw [Mark.next_skip] at hrest
      simpa [not_isBreak_space, isSpaceOrTab, hblank] using hrest

theorem scanPlain_blank {indent : Int} (word : Bool) (rest : List Char) (m : Mark) {g : Gap}
    (hg : g.broken = false) :
    scanPlain false indent word (' ' :: rest) m g =
      scanPlain false indent false rest m.next { g with blanks := g.blanks ++ [' '] } := by
  have hadd : g.addBlank ' ' = { g with blanks := g.blanks ++ [' '] } := by simp [Gap.addBlank, hg]
  rw [scanPlain_cons (by decide), if_neg (by decide), if_pos (by decide), if_neg (by simp), hadd]

/-- A character that neither belongs to a gap nor ends the text. -/
theorem scanPlain_solid {indent : Int} {c : Char} {rest : List Char} {word : Bool} {m : Mark}
    {g : Gap} (hreturn : c ≠ '\r') (hbreak : isBreak c = false) (hblank : isSpaceOrTab c = false)
    (hstart : word = false → c ≠ '#' ∧ 0 < m.column ∧ indent ≤ m.column)
    (hcolon : c = ':' → isGap rest.head? = false) (hg : g.broken = false) :
    scanPlain false indent word (c :: rest) m g =
      (scanPlain false indent true rest m.next {}).map (·.prepend (g.blanks ++ [c])) := by
  have hstop : ¬(!word && ((!false && decide ((m.column : Int) < indent))
      || atMarker (c :: rest) m || c = '#')) = true := by
    cases word with
    | true => simp
    | false =>
        obtain ⟨hhash, hzero, hindent⟩ := hstart rfl
        simp [hhash, atMarker_of_column hzero, Int.not_lt.mpr hindent]
  have hfold : g.fold = g.blanks := by simp [Gap.fold, hg]
  rw [scanPlain_cons hreturn, if_neg (by simp [hbreak]), if_neg (by simp [hblank]), if_neg hstop,
    if_neg (by simpa using hcolon), if_neg (by simp), if_neg (by simp), hfold]

/-- A plain text behind a character `p`, with the blanks read last still pending: whatever comes
next, it is read as if nothing had come before it. -/
theorem scanPlain_append {indent : Int} {cs : List Char} (hnil : cs ≠ []) {p : Char} (word : Bool)
    {m : Mark} {g : Gap} (hplain : ∀ c ∈ cs, isPrintable c = true ∧ isBreak c = false)
    (hsign : hasInnerSign p cs = false) (hend : cs.getLast? ≠ some ' ')
    (hword : word = false → p = ' ' ∧ 0 < m.column ∧ indent ≤ m.column)
    (hcolumn : indent ≤ (m.column : Int) + 1) (hg : g.broken = false) (tail : List Char) :
    scanPlain false indent word (cs ++ tail) m g =
      (scanPlain false indent true tail (m.skip cs.length) {}).map
        (·.prepend (g.blanks ++ cs)) := by
  induction cs generalizing p word m g with
  | nil => exact absurd rfl hnil
  | cons c cs ih =>
      obtain ⟨hprint, hbreak⟩ := hplain c List.mem_cons_self
      have hplain' : ∀ c ∈ cs, isPrintable c = true ∧ isBreak c = false :=
        fun c hc => hplain c (List.mem_cons_of_mem _ hc)
      rw [hasInnerSign, Bool.or_eq_false_iff, Bool.or_eq_false_iff] at hsign
      obtain ⟨⟨hcolon, hhash⟩, hsign'⟩ := hsign
      have hnext : 0 < m.next.column ∧ indent ≤ m.next.column := ⟨Nat.succ_pos m.column, hcolumn⟩
      have hcolumn' : indent ≤ (m.next.column : Int) + 1 := Int.le_add_one hnext.2
      have hend' (hcs : cs ≠ []) : cs.getLast? ≠ some ' ' := by
        rwa [List.getLast?_cons_of_ne_nil hcs] at hend
      rw [List.cons_append]
      by_cases hblank : c = ' '
      · subst hblank
        have hcs : cs ≠ [] := by
          rintro rfl
          exact hend rfl
        have hrest :=
          ih hcs false (m := m.next) (g := { g with blanks := g.blanks ++ [' '] }) hplain'
          hsign' (hend' hcs) (fun _ => ⟨rfl, hnext⟩) hcolumn' hg
        rw [scanPlain_blank word _ m hg, hrest, Mark.next_skip]
        simp
      · have hspace : isSpaceOrTab c = false := by
          rw [← Bool.not_eq_true, isSpaceOrTab_iff_of_isPrintable hprint]
          exact hblank
        have hstart (hw : word = false) : c ≠ '#' ∧ 0 < m.column ∧ indent ≤ m.column := by
          obtain ⟨rfl, hbounds⟩ := hword hw
          refine ⟨?_, hbounds⟩
          rintro rfl
          revert hhash
          decide
        have hgap : c = ':' → isGap (cs ++ tail).head? = false := by
          rintro rfl
          cases cs with
          | nil => exact absurd hcolon (by decide)
          | cons d ds => simpa using hcolon
        rw [scanPlain_solid (ne_return_of_isPrintable hprint) hbreak hspace hstart hgap hg]
        by_cases hcs : cs = []
        · subst hcs
          rfl
        · rw [ih hcs true hplain' hsign' (hend' hcs) (by simp) hcolumn' rfl, Mark.next_skip]
          simp [Function.comp_def, Scanned.prepend_prepend]

/-! ## Single quotes -/

theorem scanSingle_quote (word : Bool) (rest : List Char) (m : Mark) (g : Gap) :
    scanSingle word ('\'' :: '\'' :: rest) m g =
      (scanSingle true rest (m.skip 2) {}).map (·.prepend (g.fold ++ ['\''])) := rfl

/-- A character that does not open a pair. -/
theorem scanSingle_cons {c : Char} {rest : List Char} (hreturn : c ≠ '\r')
    (hquote : c = '\'' → rest.head? ≠ some '\'') (word : Bool) (m : Mark) (g : Gap) :
    scanSingle word (c :: rest) m g =
      if isBreak c then scanSingle false rest (m.newline 1) (g.addBreak (keptBreak c))
      else if isSpaceOrTab c then scanSingle false rest m.next (g.addBlank c)
      else if !word && atMarker (c :: rest) m then none
      else if c = '\'' then some ⟨g.fold, rest, m.next, false⟩
      else (scanSingle true rest m.next {}).map (·.prepend (g.fold ++ [c])) := by
  rw [scanSingle]
  · intro rest' hr
    exact absurd hr hreturn
  · rintro rest' hc rfl
    exact hquote hc rfl

theorem scanSingle_close {rest : List Char} (hrest : rest.head? ≠ some '\'') (word : Bool)
    {m : Mark} (hcolumn : 0 < m.column) (g : Gap) :
    scanSingle word ('\'' :: rest) m g = some ⟨g.fold, rest, m.next, false⟩ := by
  rw [scanSingle_cons (by decide) fun _ => hrest]
  simp [isBreak, isSpaceOrTab, atMarker_of_column hcolumn]

theorem scanSingle_indentation (n : Nat) (rest : List Char) (m : Mark) {g : Gap}
    (hg : g.broken = true) :
    scanSingle false (indentation n ++ rest) m g = scanSingle false rest (m.skip n) g := by
  induction n generalizing m with
  | zero => simp [Mark.skip]
  | succ n ih =>
      have hblank : g.addBlank ' ' = g := by simp [Gap.addBlank, hg]
      rw [indentation_succ, List.cons_append, scanSingle_cons (by decide) (by simp),
        if_neg (by decide), if_pos (by decide), hblank, ih, Mark.next_skip]

theorem keptBreak_of_isPrintable {c : Char} (h : isPrintable c = true) (hbreak : isBreak c = true) :
    keptBreak c = c := by
  rcases (isBreak_iff_of_isPrintable h).mp hbreak with rfl | rfl | rfl <;> decide

/-- Breaks that are kept add up, unless the first of them is a line feed. -/
theorem Gap.fold_addBreak {g : Gap} {c : Char} (hc : c ≠ '\n')
    (hlead : g.broken = true → g.lead ≠ ['\n']) (hblanks : g.broken = false → g.blanks = []) :
    (g.addBreak c).fold = g.fold ++ [c] := by
  cases hbroken : g.broken with
  | true =>
      have hne := hlead hbroken
      simp [Gap.addBreak, Gap.fold, hbroken, hne]
  | false => simp [Gap.addBreak, Gap.fold, hbroken, hblanks hbroken, hc]

theorem hasPair_tail {p q : Char → Bool} {c : Char} {cs : List Char}
    (h : hasPair p q (c :: cs) = false) : hasPair p q cs = false := by
  cases cs with
  | nil => rfl
  | cons d ds =>
      rw [hasPair, Bool.or_eq_false_iff] at h
      exact h.2

theorem hasPair_head {p q : Char → Bool} {c : Char} {cs : List Char}
    (h : hasPair p q (c :: cs) = false) (hc : p c = true) : ∀ d ∈ cs.head?, q d = false := by
  cases cs with
  | nil => simp
  | cons d ds =>
      rw [hasPair, Bool.or_eq_false_iff] at h
      simpa [hc] using h.1

/-- What is written as `body` is read as `text`, up to the quote that closes it.  A text that stays
on its line (`flat`) ends as many columns further as `body` is long. -/
def ReadsSingle (rest : List Char) (flat : Prop) (word : Bool) (body : List Char) (m : Mark)
    (g : Gap) (text : List Char) : Prop :=
  ∃ m', m.line ≤ m'.line ∧ (flat → m' = m.skip (body.length + 1)) ∧
    scanSingle word (body ++ '\'' :: rest) m g = some ⟨text, rest, m', false⟩

namespace ReadsSingle

variable {rest body text : List Char} {flat : Prop} {word : Bool} {m : Mark} {g : Gap} {c : Char}

theorem mono {flat' : Prop} (h : ReadsSingle rest flat word body m g text) (hflat : flat' → flat) :
    ReadsSingle rest flat' word body m g text := by
  obtain ⟨m', hl, hend, hscan⟩ := h
  exact ⟨m', hl, fun h => hend (hflat h), hscan⟩

theorem close (hrest : rest.head? ≠ some '\'') (hcolumn : 0 < m.column) :
    ReadsSingle rest flat word [] m g g.fold :=
  ⟨m.next, Nat.le_refl _, fun _ => rfl, scanSingle_close hrest word hcolumn g⟩

/-- Behind a break, the indentation is passed over. -/
theorem indented {n : Nat} (hg : g.broken = true)
    (h : ReadsSingle rest flat false body (m.skip n) g text) :
    ReadsSingle rest flat false (indentation n ++ body) m g text := by
  obtain ⟨m', hl, hend, hscan⟩ := h
  refine ⟨m', hl, fun h => ?_, by rw [List.append_assoc, scanSingle_indentation n _ m hg, hscan]⟩
  have hlength : (indentation n).length = n := List.length_replicate
  rw [hend h, Mark.skip_skip, List.length_append, hlength, Nat.add_assoc]

theorem ofBreak (hc : isPrintable c = true) (hbreak : isBreak c = true) (hflat : ¬ flat)
    {flat' : Prop} (h : ReadsSingle rest flat' false body (m.newline 1) (g.addBreak c) text) :
    ReadsSingle rest flat word (c :: body) m g text := by
  obtain ⟨m', hl, -, hscan⟩ := h
  have hquote : c ≠ '\'' := by
    rintro rfl
    revert hbreak
    decide
  refine ⟨m', Nat.le_of_succ_le hl, fun h => absurd h hflat, ?_⟩
  rw [List.cons_append, scanSingle_cons (ne_return_of_isPrintable hc) (absurd · hquote),
    if_pos hbreak, keptBreak_of_isPrintable hc hbreak, hscan]

theorem ofBlank (h : ReadsSingle rest flat false body m.next (g.addBlank ' ') text) :
    ReadsSingle rest flat word (' ' :: body) m g text := by
  obtain ⟨m', hl, hend, hscan⟩ := h
  refine ⟨m', hl, fun h => by rw [hend h, Mark.next_skip, List.length_cons], ?_⟩
  rw [List.cons_append, scanSingle_cons (by decide) (by simp), if_neg (by decide),
    if_pos (by decide), hscan]

theorem ofQuote (h : ReadsSingle rest flat true body (m.skip 2) {} text) :
    ReadsSingle rest flat word ('\'' :: '\'' :: body) m g (g.fold ++ '\'' :: text) := by
  obtain ⟨m', hl, hend, hscan⟩ := h
  refine ⟨m', hl, fun h => ?_, ?_⟩
  · rw [hend h, Mark.skip_skip, List.length_cons, List.length_cons, Nat.add_comm 2]
  · rw [List.cons_append, List.cons_append, scanSingle_quote, hscan]
    simp [Scanned.prepend]

theorem ofSolid (hreturn : c ≠ '\r') (hbreak : isBreak c = false) (hblank : isSpaceOrTab c = false)
    (hquote : c ≠ '\'') (hcolumn : 0 < m.column)
    (h : ReadsSingle rest flat true body m.next {} text) :
    ReadsSingle rest flat word (c :: body) m g (g.fold ++ c :: text) := by
  obtain ⟨m', hl, hend, hscan⟩ := h
  refine ⟨m', hl, fun h => by rw [hend h, Mark.next_skip, List.length_cons], ?_⟩
  rw [List.cons_append, scanSingle_cons hreturn (absurd · hquote), if_neg (by simp [hbreak]),
    if_neg (by simp [hblank]), if_neg (by simp [atMarker_of_column hcolumn]), if_neg hquote, hscan]
  simp [Scanned.prepend]

/-- A character as the writer spells it, before text that a blank or another character may
precede. -/
theorem ofChar (hc : isPrintable c = true) (hbreak : isBreak c = false) (hcolumn : 0 < m.column)
    (hspace : c = ' ' → g.broken = false ∧
      ReadsSingle rest flat false body m.next (g.addBlank ' ') ((g.addBlank ' ').fold ++ text))
    (hword : ∀ {m : Mark}, 0 < m.column → ReadsSingle rest flat true body m {} text) :
    ReadsSingle rest flat word ((if c = '\'' then ['\'', '\''] else [c]) ++ body) m g
      (g.fold ++ c :: text) := by
  by_cases hquote : c = '\''
  · subst hquote
    exact ofQuote (hword (m := m.skip 2) (by simp [Mark.skip]))
  · rw [if_neg hquote, List.singleton_append]
    by_cases hblank : c = ' '
    · subst hblank
      obtain ⟨hg, h⟩ := hspace rfl
      have hfold : (g.addBlank ' ').fold = g.fold ++ [' '] := by simp [Gap.addBlank, Gap.fold, hg]
      rw [hfold, List.append_assoc, List.singleton_append] at h
      exact ofBlank h
    · have hnot : isSpaceOrTab c = false := by
        rw [← Bool.not_eq_true, isSpaceOrTab_iff_of_isPrintable hc]
        exact hblank
      exact ofSolid (ne_return_of_isPrintable hc) hbreak hnot hquote hcolumn
        (hword (m := m.next) (by simp [Mark.next]))

end ReadsSingle

/-- Only a line feed makes a gap that starts with one. -/
theorem Gap.lead_addBreak {g : Gap} {c : Char} (hc : c ≠ '\n')
    (hlead : g.broken = true → g.lead ≠ ['\n']) :
    (g.addBreak c).broken = true ∧ (g.addBreak c).lead ≠ ['\n'] := by
  cases hbroken : g.broken with
  | true => simpa [Gap.addBreak, hbroken] using hlead hbroken
  | false => simpa [Gap.addBreak, hbroken] using hc

/-- The rest of a text in single quotes, at the start of a line or not. -/
theorem scanSingle_rest {indent : Nat} (hindent : 0 < indent) {rest : List Char}
    (hrest : rest.head? ≠ some '\'') {cs : List Char} (broken word : Bool) {m : Mark} {g : Gap}
    (hprint : ∀ c ∈ cs, isPrintable c = true ∧ c ≠ '\n')
    (hblankBreak : hasPair (· == ' ') isBreak cs = false)
    (hbreakBlank : hasPair isBreak (· == ' ') cs = false) (hg : g.broken = broken)
    (hbroken : broken = true → word = false ∧ g.lead ≠ ['\n'] ∧ ∀ c ∈ cs.head?, c ≠ ' ')
    (hword : broken = false → 0 < m.column ∧ (g.blanks = [] ∨ ∀ c ∈ cs.head?, isBreak c = false)) :
    ReadsSingle rest (∀ c ∈ cs, isBreak c = false) word (singleBody indent broken cs) m g
      (g.fold ++ cs) := by
  induction cs generalizing broken word m g with
  | nil =>
      rw [singleBody, List.append_nil]
      cases broken with
      | true =>
          obtain ⟨rfl, -, -⟩ := hbroken rfl
          have hclose :
              ReadsSingle rest (∀ c ∈ [], isBreak c = false) false [] (m.skip indent) g g.fold :=
            .close hrest (Nat.lt_add_left m.column hindent)
          simpa using hclose.indented hg
      | false => exact .close hrest (hword rfl).1
  | cons c cs ih =>
      obtain ⟨hc, hfeed⟩ := hprint c List.mem_cons_self
      have hprint' : ∀ c ∈ cs, isPrintable c = true ∧ c ≠ '\n' :=
        fun c hc => hprint c (List.mem_cons_of_mem _ hc)
      have htail := hasPair_tail hblankBreak
      have htail' := hasPair_tail hbreakBlank
      rw [singleBody]
      cases hbreak : isBreak c with
      | true =>
          have hblanks (hb : g.broken = false) : g.blanks = [] := by
            rcases (hword (hg.symm.trans hb)).2 with hnil | hhead
            · exact hnil
            · simp [hhead c rfl] at hbreak
          have hlead (hb : g.broken = true) : g.lead ≠ ['\n'] := (hbroken (hg.symm.trans hb)).2.1
          obtain ⟨hadded, hlead'⟩ := Gap.lead_addBreak hfeed hlead
          have hrest' := ih true false (m := m.newline 1) hprint' htail htail' hadded
            (fun _ =>
              ⟨rfl, hlead', fun d hd => by simpa using hasPair_head hbreakBlank hbreak d hd⟩)
            (by simp)
          rw [Gap.fold_addBreak hfeed hlead hblanks, List.append_assoc,
            List.singleton_append] at hrest'
          exact hrest'.ofBreak hc hbreak fun hline => by simp [hline c List.mem_cons_self] at hbreak
      | false =>
          have hflat (h : ∀ d ∈ c :: cs, isBreak d = false) : ∀ d ∈ cs, isBreak d = false :=
            fun d hd => h d (List.mem_cons_of_mem _ hd)
          -- At the start of a line the indentation comes first; then the character is one
          -- like any other.
          have hline (word : Bool) {m : Mark} (hcolumn : 0 < m.column)
              (hblank : c = ' ' → g.broken = false) :
              ReadsSingle rest (∀ d ∈ cs, isBreak d = false) word
                ((if c = '\'' then ['\'', '\''] else [c]) ++ singleBody indent false cs) m g
                (g.fold ++ c :: cs) := by
            refine .ofChar hc hbreak hcolumn (fun hspace => ⟨hblank hspace, ?_⟩) fun hm =>
              ih false true (g := {}) hprint' htail htail' rfl (by simp) fun _ => ⟨hm, .inl rfl⟩
            refine ih false false hprint' htail htail' (by simp [Gap.addBlank, hblank hspace])
              (by simp)
              fun _ => ⟨by simp [Mark.next], .inr fun d hd => ?_⟩
            exact hasPair_head hblankBreak (by simp [hspace]) d hd
          cases broken with
          | true =>
              obtain ⟨rfl, -, hhead⟩ := hbroken rfl
              have hcolumn : 0 < (m.skip indent).column := Nat.lt_add_left m.column hindent
              have hread :=
                (hline false hcolumn fun hspace => absurd hspace (hhead c rfl)).indented hg
              simpa using hread.mono hflat
          | false => simpa using (hline word (hword rfl).1 fun _ => hg).mono hflat

/-! ## Double quotes -/

theorem charOfCode?_toNat (c : Char) : charOfCode? c.toNat = some c := by
  have hvalid : c.toNat < 0xD800 ∨ 0xDFFF < c.toNat ∧ c.toNat < 0x110000 := c.valid
  rw [charOfCode?, if_neg (by simp; omega), Char.ofNat_toNat]

theorem scanDouble_hex (left value : Nat) (c : Char) (rest : List Char) (m : Mark) (g : Gap) :
    scanDouble (.hex left value) (c :: rest) m g =
      match Text.hexValue? c with
      | none => none
      | some d =>
        if left ≤ 1 then
          match charOfCode? (value * 16 + d) with
          | none => none
          | some x => (scanDouble .word rest m.next {}).map (·.prepend (g.fold ++ [x]))
        else scanDouble (.hex (left - 1) (value * 16 + d)) rest m.next g := rfl

/-- All hexadecimal digits of an escape but the last `j + 1`. -/
theorem scanDouble_upperHex (w j v n : Nat) (rest : List Char) (m : Mark) (g : Gap) :
    scanDouble (.hex (w + (j + 1)) v) (Text.upperHex w n ++ rest) m g =
      scanDouble (.hex (j + 1) (v * 16 ^ w + n % 16 ^ w)) rest (m.skip w) g := by
  induction w generalizing j n rest with
  | zero => simp [Text.upperHex, Mark.skip, Nat.mod_one]
  | succ w ih =>
      have hdigit := Text.hexValue?_upperHexDigit (Nat.mod_lt n (show 0 < 16 by decide))
      have hvalue : (v * 16 ^ w + n / 16 % 16 ^ w) * 16 + n % 16 =
          v * 16 ^ (w + 1) + n % 16 ^ (w + 1) := by
        have hmod : n % (16 * 16 ^ w) = n % 16 + 16 * (n / 16 % 16 ^ w) := Nat.mod_mul
        rw [Nat.pow_succ', hmod, Nat.mul_left_comm v 16]
        omega
      rw [Text.upperHex, List.append_assoc, Nat.succ_add_eq_add_succ, ih, List.cons_append,
        List.nil_append, scanDouble_hex, hdigit]
      simp only
      rw [if_neg (by omega), hvalue, Mark.skip_next]
      rfl

/-- The last hexadecimal digit of an escape. -/
theorem scanDouble_lastHex {v d : Nat} {c : Char} (hd : d < 16) (hc : v * 16 + d = c.toNat)
    (rest : List Char) (m : Mark) (g : Gap) :
    scanDouble (.hex 1 v) (Text.upperHexDigit d :: rest) m g =
      (scanDouble .word rest m.next {}).map (·.prepend (g.fold ++ [c])) := by
  rw [scanDouble_hex, Text.hexValue?_upperHexDigit hd]
  simp [hc, charOfCode?_toNat]

/-- A character behind a backslash and the letter that announces `w + 1` hexadecimal digits. -/
theorem scanDouble_hexEscape {w : Nat} {c : Char} (hc : c.toNat < 16 ^ (w + 1)) (rest : List Char)
    (m : Mark) (g : Gap) :
    scanDouble (.hex (w + 1) 0) (Text.upperHex (w + 1) c.toNat ++ rest) m g =
      (scanDouble .word rest (m.skip (w + 1)) {}).map (·.prepend (g.fold ++ [c])) := by
  have hdiv : c.toNat / 16 % 16 ^ w = c.toNat / 16 := by
    apply Nat.mod_eq_of_lt
    rw [Nat.pow_succ] at hc
    omega
  have hlast := Nat.mod_lt c.toNat (show 0 < 16 by decide)
  rw [Text.upperHex, List.append_assoc, scanDouble_upperHex w 0, hdiv, List.cons_append,
    List.nil_append, scanDouble_lastHex (c := c) hlast (by omega), Mark.skip_next]

section Escape

variable {state : QuoteState} (hstate : state = .word ∨ state = .gap) {e : Char}
  (hbreak : isBreak e = false)

include hstate hbreak

/-- A backslash in front of anything but a break. -/
theorem scanDouble_escape (rest : List Char) (m : Mark) (g : Gap) :
    scanDouble state ('\\' :: e :: rest) m g =
      match escape? e with
      | none => none
      | some (.char x) => (scanDouble .word rest (m.skip 2) {}).map (·.prepend (g.fold ++ [x]))
      | some (.hex n) => scanDouble (.hex n 0) rest (m.skip 2) g := by
  have hreturn := ne_return_of_not_isBreak hbreak
  rcases hstate with rfl | rfl
  all_goals
    rw [scanDouble]
    · simp only [hbreak]
      rfl
    · simp [hreturn]
    · intro left value hhex
      simp at hhex

theorem scanDouble_charEscape {x : Char} (he : escape? e = some (.char x)) (rest : List Char)
    (m : Mark) (g : Gap) :
    scanDouble state ('\\' :: e :: rest) m g =
      (scanDouble .word rest (m.skip 2) {}).map (·.prepend (g.fold ++ [x])) := by
  rw [scanDouble_escape hstate hbreak, he]

theorem scanDouble_openHex {n : Nat} (he : escape? e = some (.hex n)) (rest : List Char)
    (m : Mark) (g : Gap) :
    scanDouble state ('\\' :: e :: rest) m g = scanDouble (.hex n 0) rest (m.skip 2) g := by
  rw [scanDouble_escape hstate hbreak, he]

end Escape

theorem scanDouble_cons {state : QuoteState} (hstate : state = .word ∨ state = .gap) {c : Char}
    (hreturn : c ≠ '\r') (hslash : c ≠ '\\') (rest : List Char) (m : Mark) (g : Gap) :
    scanDouble state (c :: rest) m g =
      if isBreak c then scanDouble .gap rest (m.newline 1) (g.addBreak (keptBreak c))
      else if isSpaceOrTab c then scanDouble .gap rest m.next (g.addBlank c)
      else if state != .word && atMarker (c :: rest) m then none
      else if c = '"' then some ⟨g.fold, rest, m.next, false⟩
      else (scanDouble .word rest m.next {}).map (·.prepend (g.fold ++ [c])) := by
  rcases hstate with rfl | rfl <;> rw [scanDouble] <;> simp [hreturn, hslash]

theorem length_upperHex (w n : Nat) : (Text.upperHex w n).length = w := by
  induction w generalizing n with
  | zero => rfl
  | succ w ih => rw [Text.upperHex, List.length_append, ih, List.length_singleton]

/-- A character beyond the first plane needs no escape. -/
theorem isPlain_of_wide {c : Char} (h : 0xFFFF < c.toNat) :
    (isPrintable c && !isBreak c) = true := by
  have hprint : isPrintable c = true := by
    simp [isPrintable]
    omega
  have hbreak : isBreak c = false := by
    rw [← Bool.not_eq_true, isBreak_iff_of_isPrintable hprint]
    rintro (rfl | rfl | rfl) <;> exact absurd h (by decide)
  simp [hprint, hbreak]

/-- A character is written as it stands, behind a backslash by a letter, or by its code of
at most four digits. -/
theorem doubleChar_cases (c : Char) :
    (doubleChar c = [c] ∧ isPrintable c = true ∧ isBreak c = false ∧ c ≠ '"' ∧ c ≠ '\\') ∨
    (∃ e, doubleChar c = ['\\', e] ∧ isBreak e = false ∧ escape? e = some (.char c)) ∨
    ∃ e w, doubleChar c = '\\' :: e :: Text.upperHex (w + 1) c.toNat ∧ isBreak e = false ∧
      escape? e = some (.hex (w + 1)) ∧ c.toNat < 16 ^ (w + 1) ∧ w < 4 := by
  obtain ⟨form, hform⟩ : ∃ form, doubleChar c = form := ⟨_, rfl⟩
  rw [hform]
  unfold doubleChar at hform
  obtain ⟨hc, hform⟩ | ⟨hquote, hform⟩ := ite_eq_iff.mp hform
  · exact .inr (.inl ⟨_, hform.symm, by decide, by rw [hc]; rfl⟩)
  obtain ⟨hc, hform⟩ | ⟨hslash, hform⟩ := ite_eq_iff.mp hform
  · exact .inr (.inl ⟨_, hform.symm, by decide, by rw [hc]; rfl⟩)
  obtain ⟨hplain, hform⟩ | ⟨hplain, hform⟩ := ite_eq_iff.mp hform
  · have hparts : isPrintable c = true ∧ isBreak c = false := by simpa using hplain
    exact .inl ⟨hform.symm, hparts.1, hparts.2, hquote, hslash⟩
  apply Or.inr
  iterate 12
    obtain ⟨hc, hform⟩ | ⟨-, hform⟩ := ite_eq_iff.mp hform
    · exact .inl ⟨_, hform.symm, by decide, by rw [hc]; rfl⟩
  apply Or.inr
  have hvalid : c.toNat < 0xD800 ∨ 0xDFFF < c.toNat ∧ c.toNat < 0x110000 := c.valid
  obtain ⟨hc, hform⟩ | ⟨-, hform⟩ := ite_eq_iff.mp hform
  · exact ⟨'x', 1, hform.symm, by decide, rfl, by omega, by decide⟩
  obtain ⟨hc, hform⟩ | ⟨hwide, hform⟩ := ite_eq_iff.mp hform
  · exact ⟨'u', 3, hform.symm, by decide, rfl, by omega, by decide⟩
  · exact absurd (isPlain_of_wide (by omega)) hplain

/-- A character that is no blank, in its escaped form where it needs one. -/
theorem scanDouble_doubleChar {state : QuoteState} (hstate : state = .word ∨ state = .gap)
    {c : Char} (hblank : c ≠ ' ') {m : Mark} (hcolumn : 0 < m.column) (rest : List Char) (g : Gap) :
    scanDouble state (doubleChar c ++ rest) m g =
      (scanDouble .word rest (m.skip (doubleChar c).length) {}).map
        (·.prepend (g.fold ++ [c])) := by
  obtain ⟨hform, hprint, hbreak, hquote, hslash⟩ | ⟨e, hform, hbreak, he⟩ |
    ⟨e, w, hform, hbreak, he, hc, -⟩ := doubleChar_cases c
  · have hspace : isSpaceOrTab c = false := by
      rw [← Bool.not_eq_true, isSpaceOrTab_iff_of_isPrintable hprint]
      exact hblank
    rw [hform, List.singleton_append,
      scanDouble_cons hstate (ne_return_of_isPrintable hprint) hslash]
    simp [hbreak, hspace, atMarker_of_column hcolumn, hquote]
    rfl
  · rw [hform]
    exact scanDouble_charEscape hstate hbreak he rest m g
  · have hlength : ('\\' :: e :: Text.upperHex (w + 1) c.toNat).length = 2 + (w + 1) := by
      simp [length_upperHex]
      omega
    rw [hform, List.cons_append, List.cons_append, scanDouble_openHex hstate hbreak he,
      scanDouble_hexEscape hc, Mark.skip_skip, hlength]

/-- The rest of a text in double quotes, with the blanks read last still pending. -/
theorem scanDouble_rest {state : QuoteState} (hstate : state = .word ∨ state = .gap)
    (cs rest : List Char) {m : Mark} (hcolumn : 0 < m.column) {g : Gap} (hg : g.broken = false) :
    scanDouble state (cs.flatMap doubleChar ++ '"' :: rest) m g =
      some ⟨g.fold ++ cs, rest, m.skip ((cs.flatMap doubleChar).length + 1), false⟩ := by
  induction cs generalizing state m g with
  | nil =>
      rw [List.flatMap_nil, List.nil_append, scanDouble_cons hstate (by decide) (by decide)]
      simp [isBreak, isSpaceOrTab, atMarker_of_column hcolumn]
      rfl
  | cons c cs ih =>
      have hskip (n : Nat) : 0 < (m.skip n).column := by
        simp only [Mark.skip]
        omega
      rw [List.flatMap_cons, List.append_assoc]
      by_cases hblank : c = ' '
      · subst hblank
        have hadd : g.addBlank ' ' = { g with blanks := g.blanks ++ [' '] } := by
          simp [Gap.addBlank, hg]
        rw [show doubleChar ' ' = [' '] by decide, List.singleton_append,
          scanDouble_cons hstate (by decide) (by decide), if_neg (by decide), if_pos (by decide),
          hadd, ih (.inr rfl) (by simp [Mark.next]) (by exact hg), Mark.next_skip]
        simp [Gap.fold, hg]
      · rw [scanDouble_doubleChar hstate hblank hcolumn, ih (.inl rfl) (hskip _) rfl,
          Mark.skip_skip, List.length_append, Nat.add_assoc]
        simp [Scanned.prepend, Gap.fold]

end PartDepot.Yaml
