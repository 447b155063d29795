import PartDepot.Json.Printer
import PartDepot.Proofs.Spelling
import PartDepot.Proofs.Values

/-!
# Numbers read back

A number is written without quotes, and the text it is written as stands for that number.
-/

namespace PartDepot.Yaml

/-! ## Texts that start like a number -/

/-- A text that starts with a digit. -/
def StartsDigit (s : List Char) : Prop := ∃ c cs, s = c :: cs ∧ c.isDigit = true

theorem ne_of_isDigit {c d : Char} (hc : c.isDigit = true) (hd : d.isDigit = false) : c ≠ d := by
  rintro rfl
  simp [hc] at hd

theorem beq_eq_false_of_head {s t : String} (h : s.toList.head? ≠ t.toList.head?) :
    (s == t) = false := by
  rw [beq_eq_false_iff_ne]
  rintro rfl
  exact h rfl

section StartsDigit

variable {s : List Char} (hs : StartsDigit s) (negative : Bool)

include hs

/-- The first character of a number is none of a word that stands for something else. -/
theorem head_signed_ne {c : Char} (hc : c.isDigit = false) (hminus : c ≠ '-') :
    (signed negative s).head? ≠ some c := by
  obtain ⟨d, ds, rfl, hd⟩ := hs
  cases negative with
  | true => simpa [signed] using hminus.symm
  | false => simpa [signed] using ne_of_isDigit hd hc

theorem resolve_signed : resolve (String.ofList (signed negative s)) =
    match whole? (String.ofList (signed negative s)) with
    | some r => r
    | none =>
      if hasLeadingZero (signed negative s) then .text
      else (fraction? (String.ofList (signed negative s))).getD .text := by
  have hne (t : String) (c : Char) (ht : t.toList.head? = some c) (hc : c.isDigit = false)
      (hminus : c ≠ '-') : (String.ofList (signed negative s) == t) = false := by
    apply beq_eq_false_of_head
    rw [String.toList_ofList, ht]
    exact head_signed_ne hs negative hc hminus
  have hempty : (String.ofList (signed negative s)).isEmpty = false := by
    obtain ⟨d, ds, rfl, hd⟩ := hs
    cases negative <;> simp [signed]
  have hnull : isNullWord (String.ofList (signed negative s)) = false := by
    simp only [isNullWord, hne "null" 'n' rfl (by decide) (by decide),
      hne "Null" 'N' rfl (by decide) (by decide), hne "NULL" 'N' rfl (by decide) (by decide),
      hne "~" '~' rfl (by decide) (by decide), Bool.or_false]
  have hbool : boolWord? (String.ofList (signed negative s)) = none := by
    simp only [boolWord?, hne "true" 't' rfl (by decide) (by decide),
      hne "True" 'T' rfl (by decide) (by decide), hne "TRUE" 'T' rfl (by decide) (by decide),
      hne "false" 'f' rfl (by decide) (by decide), hne "False" 'F' rfl (by decide) (by decide),
      hne "FALSE" 'F' rfl (by decide) (by decide), Bool.or_false, Bool.false_eq_true, if_false]
  rw [resolve, hempty, hnull, hbool, String.toList_ofList]
  rfl

theorem signed_ne_infinite (rest : List Char) : signed negative s ≠ '-' :: '.' :: rest := by
  obtain ⟨d, ds, rfl, hd⟩ := hs
  cases negative with
  | true => simp [signed, ne_of_isDigit hd (show '.'.isDigit = false by decide)]
  | false => simp [signed, ne_of_isDigit hd (show '-'.isDigit = false by decide)]

theorem fraction?_signed : fraction? (String.ofList (signed negative s)) =
    (decimal? negative s).map .fraction := by
  have hne (t : String) (c : Char) (ht : t.toList.head? = some c) (hc : c.isDigit = false)
      (hminus : c ≠ '-') : (String.ofList (signed negative s) == t) = false := by
    apply beq_eq_false_of_head
    rw [String.toList_ofList, ht]
    exact head_signed_ne hs negative hc hminus
  have hne' (t : String) (rest : List Char) (ht : t.toList = '-' :: '.' :: rest) :
      (String.ofList (signed negative s) == t) = false := by
    rw [beq_eq_false_iff_ne]
    rintro rfl
    rw [String.toList_ofList] at ht
    exact signed_ne_infinite hs negative rest ht
  simp only [fraction?, hne ".nan" '.' rfl (by decide) (by decide),
    hne ".NaN" '.' rfl (by decide) (by decide), hne ".NAN" '.' rfl (by decide) (by decide),
    hne ".inf" '.' rfl (by decide) (by decide), hne ".Inf" '.' rfl (by decide) (by decide),
    hne ".INF" '.' rfl (by decide) (by decide), hne "+.inf" '+' rfl (by decide) (by decide),
    hne "+.Inf" '+' rfl (by decide) (by decide), hne "+.INF" '+' rfl (by decide) (by decide),
    hne' "-.inf" _ rfl, hne' "-.Inf" _ rfl, hne' "-.INF" _ rfl,
    Bool.or_false, Bool.false_eq_true, if_false, String.toList_ofList]
  obtain ⟨d, ds, rfl, hd⟩ := hs
  cases negative with
  | true => rfl
  | false =>
      have hplus := ne_of_isDigit hd (show '+'.isDigit = false by decide)
      have hminus := ne_of_isDigit hd (show '-'.isDigit = false by decide)
      simp [signed, hplus, hminus]

theorem hasLeadingZero_signed : hasLeadingZero (signed negative s) = hasLeadingZero s := by
  obtain ⟨d, ds, rfl, hd⟩ := hs
  have hplus := ne_of_isDigit hd (show '+'.isDigit = false by decide)
  have hminus := ne_of_isDigit hd (show '-'.isDigit = false by decide)
  cases negative with
  | false => rfl
  | true => simp [signed, hasLeadingZero, hplus, hminus]

end StartsDigit

/-! ## Whole numbers -/

theorem announcedBase?_eq_none {s : List Char} (hs : ∀ c ∈ s, c ≠ 'x' ∧ c ≠ 'o' ∧ c ≠ 'b') :
    announcedBase? s = none := by
  unfold announcedBase?
  split
  · exact absurd rfl (hs 'x' (by simp)).1
  · exact absurd rfl (hs 'o' (by simp)).2.1
  · exact absurd rfl (hs 'b' (by simp)).2.2
  · rfl

theorem ne_baseLetter_of_isDigit {c : Char} (hc : c.isDigit = true) : c ≠ 'x' ∧ c ≠ 'o' ∧ c ≠ 'b' :=
  ⟨ne_of_isDigit hc (by decide), ne_of_isDigit hc (by decide), ne_of_isDigit hc (by decide)⟩

section Whole

variable (bits n : Nat)

theorem unsigned?_toDigits :
    unsigned? bits (Nat.toDigits 10 n) = if n < 2 ^ bits then some n else none := by
  have hbase : announcedBase? (Nat.toDigits 10 n) = none :=
    announcedBase?_eq_none fun c hc => ne_baseLetter_of_isDigit (isDigit_of_mem_toDigits hc)
  have hzero := hasLeadingZero_toDigits n
  have hread := digits?_toDigits n
  have hall : ∀ c ∈ Nat.toDigits 10 n, c.isDigit = true := fun c => isDigit_of_mem_toDigits
  generalize Nat.toDigits 10 n = ds at *
  unfold unsigned?
  split
  · exact absurd (hall '+' (by simp)) (by decide)
  · simp [hbase, hzero, hread]

theorem unsigned?_minus (s : List Char) : unsigned? bits ('-' :: s) = none := by
  have hread : digits? 10 ('-' :: s) = none :=
    digits?_eq_none List.mem_cons_self (by simp [Text.hexValue?, Char.isDigit])
  simp [unsigned?, announcedBase?, hread]

theorem startsDigit_toDigits : StartsDigit (Nat.toDigits 10 n) := by
  obtain ⟨d, ds, hchars⟩ := List.exists_cons_of_ne_nil (Nat.toDigits_ne_nil (n := n) (b := 10))
  exact ⟨d, ds, hchars, isDigit_of_mem_toDigits (n := n) (by simp [hchars])⟩

theorem negative?_minus : negative? bits ('-' :: Nat.toDigits 10 n) =
    if n ≤ 2 ^ (bits - 1) then some (-(n : Int)) else none := by
  have hbase : announcedBase? (Nat.toDigits 10 n) = none :=
    announcedBase?_eq_none fun c hc => ne_baseLetter_of_isDigit (isDigit_of_mem_toDigits hc)
  have hzero : hasLeadingZero ('-' :: Nat.toDigits 10 n) = false :=
    (hasLeadingZero_signed (startsDigit_toDigits n) true).trans (hasLeadingZero_toDigits n)
  simp [negative?, hbase, hzero, digits?_toDigits]

end Whole

/-- A whole number of 64 bits stands for itself. -/
theorem resolve_toString {n : Int} (hn : Json.Exact n) : resolve (toString n) = .whole n := by
  obtain ⟨hlow, hhigh⟩ := hn
  have htext : toString n = String.ofList (signed (decide (n < 0)) (Nat.toDigits 10 n.natAbs)) := by
    rw [← toList_toString_int, String.ofList_toList]
  have hwhole : whole? (toString n) = some (.whole n) := by
    rw [htext, whole?, String.toList_ofList]
    by_cases h : n < 0
    · have hvalue : negative? 64 ('-' :: Nat.toDigits 10 n.natAbs) = some n := by
        rw [negative?_minus, if_pos (by omega), Option.some.injEq]
        omega
      simp only [signed, h, decide_true, if_true, unsigned?_minus, hvalue]
    · have hvalue : unsigned? 64 (Nat.toDigits 10 n.natAbs) = some n.natAbs := by
        rw [unsigned?_toDigits, if_pos (by omega)]
      have habs : (n.natAbs : Int) = n := by omega
      simp only [signed, h, decide_false, Bool.false_eq_true, if_false, hvalue, habs]
  rw [htext] at hwhole ⊢
  rw [resolve_signed (startsDigit_toDigits _), hwhole]

/-! ## Fractions -/

namespace Spells

variable {s : List Char} {n : Nat} {e : Int}

theorem startsDigit (h : Spells s n e) : StartsDigit s := by
  cases h with
  | @point ws _ _ _ hws _ hnil _ | @bare ws _ _ hws hnil _ _ =>
      obtain ⟨c, cs, rfl⟩ := List.exists_cons_of_ne_nil hnil
      exact ⟨c, _, rfl, hws c List.mem_cons_self⟩

/-- No whole number is spelled with a point or an exponent. -/
theorem exists_mark (h : Spells s n e) : ∃ c ∈ s, c = '.' ∨ c = 'e' := by
  cases h with
  | point => exact ⟨'.', by simp, .inl rfl⟩
  | bare _ _ htail hexponent =>
      cases htail with
      | none => exact absurd rfl hexponent
      | up n => exact ⟨'e', by simp, .inr rfl⟩
      | down n => exact ⟨'e', by simp, .inr rfl⟩

theorem chars (h : Spells s n e) : ∀ c ∈ s, c.isDigit = true ∨ c = '.' ∨ c = 'e' ∨ c = '-' := by
  have htail {tail : List Char} {e : Int} (htail : IsExponent tail e) :
      ∀ c ∈ tail, c.isDigit = true ∨ c = '.' ∨ c = 'e' ∨ c = '-' := by
    intro c hc
    cases htail with
    | none => cases hc
    | up n =>
        rcases List.mem_cons.mp hc with rfl | hc
        · simp
        · exact .inl (isDigit_of_mem_toDigits hc)
    | down n =>
        rcases List.mem_cons.mp hc with rfl | hc
        · simp
        · rcases List.mem_cons.mp hc with rfl | hc
          · simp
          · exact .inl (isDigit_of_mem_toDigits hc)
  intro c hc
  cases h with
  | point hws hfs _ hexponent =>
      rcases List.mem_append.mp hc with hc | hc
      · exact .inl (hws c hc)
      · rcases List.mem_cons.mp hc with rfl | hc
        · simp
        · exact (List.mem_append.mp hc).elim (fun hc => .inl (hfs c hc)) (htail hexponent c)
  | bare hws _ hexponent _ =>
      exact (List.mem_append.mp hc).elim (fun hc => .inl (hws c hc)) (htail hexponent c)

theorem hasLeadingZero_eq_false (h : Spells s n e) : hasLeadingZero s = false := by
  obtain ⟨c, hmem, hmark⟩ := h.exists_mark
  have hdigit : c.isDigit = false := by rcases hmark with rfl | rfl <;> decide
  obtain ⟨d, ds, rfl, hd⟩ := h.startsDigit
  have hds : ds.all Char.isDigit = false := by
    rw [List.all_eq_false]
    refine ⟨c, (List.mem_cons.mp hmem).resolve_left ?_, by simp [hdigit]⟩
    rintro rfl
    simp [hdigit] at hd
  have hplus := ne_of_isDigit hd (show '+'.isDigit = false by decide)
  have hminus := ne_of_isDigit hd (show '-'.isDigit = false by decide)
  by_cases hzero : d = '0'
  · simp [hasLeadingZero, hzero, hds]
  · simp [hasLeadingZero, hplus, hminus, hzero]

/-- A text with a point or an exponent spells no whole number. -/
theorem whole?_eq_none (h : Spells s n e) (negative : Bool) :
    whole? (String.ofList (signed negative s)) = none := by
  obtain ⟨c, hmem, hmark⟩ := h.exists_mark
  have hread : digits? 10 s = none :=
    digits?_eq_none hmem (by rcases hmark with rfl | rfl <;> simp [Text.hexValue?])
  have hbase : announcedBase? s = none := announcedBase?_eq_none fun c hc => by
    obtain hdigit | rfl | rfl | rfl := h.chars c hc
    · exact ne_baseLetter_of_isDigit hdigit
    all_goals decide
  have hzero := h.hasLeadingZero_eq_false
  rw [whole?, String.toList_ofList]
  cases negative with
  | true =>
      have hnegative (bits : Nat) : negative? bits ('-' :: s) = none := by
        simp [negative?, hbase, hread]
      simp [signed, unsigned?_minus, hnegative]
  | false =>
      obtain ⟨d, ds, rfl, hd⟩ := h.startsDigit
      have hplus := ne_of_isDigit hd (show '+'.isDigit = false by decide)
      have hminus := ne_of_isDigit hd (show '-'.isDigit = false by decide)
      have hunsigned (bits : Nat) : unsigned? bits (d :: ds) = none := by
        simp [unsigned?, hplus, hbase, hread]
      have hnegative (bits : Nat) : negative? bits (d :: ds) = none := by
        simp [negative?, hminus]
      simp [signed, hunsigned, hnegative]

theorem resolve_eq (h : Spells s n e) {negative : Bool} {x : Binary64}
    (hx : Binary64.ofDecimal negative n e = some x) :
    resolve (String.ofList (signed negative s)) = .fraction x := by
  rw [resolve_signed h.startsDigit, h.whole?_eq_none, hasLeadingZero_signed h.startsDigit,
    h.hasLeadingZero_eq_false, fraction?_signed h.startsDigit, h.decimal?_eq, hx]
  rfl

end Spells

theorem eq_zero_of_isZero {x : Binary64} (hx : x.isZero = true) : x = Binary64.zero x.negative := by
  obtain ⟨negative, m, e, hcanonical⟩ := x
  have hm : m = 0 := by simpa [Binary64.isZero] using hx
  have he : e = -1074 := hcanonical.2.2.2.resolve_right (by omega)
  subst hm he
  rfl

/-- The text of a double spells a decimal number that rounds to the double. -/
theorem exists_spells_render (x : Binary64) : ∃ s n e, Spells s n e ∧
    x.render.toList = signed x.negative s ∧ Binary64.ofDecimal x.negative n e = some x := by
  have hsign (magnitude : String) : (if x.negative then "-" ++ magnitude else magnitude).toList =
      signed x.negative magnitude.toList := by
    cases x.negative
    · rfl
    · simp [signed]
  cases hzero : x.isZero with
  | true =>
      have hdigit : ∀ c ∈ ['0'], c.isDigit = true := by simp
      refine ⟨"0.0".toList, _, _,
        Spells.point hdigit hdigit (List.cons_ne_nil _ _) IsExponent.none, ?_, ?_⟩
      · rw [Binary64.render]
        simp only [hzero]
        exact hsign "0.0"
      · conv_rhs => rw [eq_zero_of_isZero hzero]
        rw [List.singleton_append, show Nat.ofDigitChars 10 ['0', '0'] 0 = 0 from rfl,
          Binary64.ofDecimal, if_pos (by decide)]
  | false =>
      have hpos : 0 < x.significand := by
        simp only [Binary64.isZero, beq_eq_false_iff_ne] at hzero
        omega
      obtain ⟨n, e, hspells, hread⟩ := spellsLike_render (Binary64.shortest_digits_pos x hpos)
      refine ⟨_, n, e, hspells, ?_, (hread x.negative).trans (Binary64.ofDecimal_shortest x hpos)⟩
      rw [Binary64.render]
      simp only [hzero]
      exact hsign _

/-- A double stands for itself. -/
theorem resolve_render (x : Binary64) : resolve x.render = .fraction x := by
  obtain ⟨s, n, e, hspells, htext, hread⟩ := exists_spells_render x
  rw [← String.ofList_toList (s := x.render), htext]
  exact hspells.resolve_eq hread

/-! ## Plain texts -/

/-- What words and numbers are made of. -/
def isUnquoted (c : Char) : Bool := c.isAlphanum || c == '.' || c == '-'

theorem not_isUnquoted {c : Char} (hc : isUnquoted c = true) :
    c ∉ [' ', ':', '#', '\n', '\r', '\u0085', '\u2028', '\u2029', ',', '[', ']', '\x7b', '\x7d',
      '&', '*', '!', '|', '>', '\'', '"', '%', '@', '\x60', '?'] := by
  intro hmem
  have hall := List.all_eq_true.mp
    (show [' ', ':', '#', '\n', '\r', '\u0085', '\u2028', '\u2029', ',', '[', ']', '\x7b', '\x7d',
      '&', '*', '!', '|', '>', '\'', '"', '%', '@', '\x60', '?'].all (!isUnquoted ·) from by decide)
    c hmem
  simp [hc] at hall

theorem isPrintable_of_isUnquoted {c : Char} (hc : isUnquoted c = true) : isPrintable c = true := by
  have hrange : 0x20 ≤ c.toNat ∧ c.toNat ≤ 0x7E := by
    have hchar : isUnquoted c = ((decide ('A'.val ≤ c.val ∧ c.val ≤ 'Z'.val) ||
        decide ('a'.val ≤ c.val) && decide (c.val ≤ 'z'.val) ||
          decide ('0'.val ≤ c.val) && decide (c.val ≤ '9'.val)) || c == '.' || c == '-') := rfl
    simp only [hchar, Bool.or_eq_true, Bool.and_eq_true, decide_eq_true_eq, beq_iff_eq,
      UInt32.le_iff_toNat_le] at hc
    have hval : c.val.toNat = c.toNat := rfl
    obtain (((h | h) | h) | rfl) | rfl := hc
    · simp at h
      omega
    · simp at h
      omega
    · simp at h
      omega
    · decide
    · decide
  simp [isPrintable, hrange]

theorem not_isBreak_of_isUnquoted {c : Char} (hc : isUnquoted c = true) : isBreak c = false := by
  have hmem := not_isUnquoted hc
  simp only [List.mem_cons, List.not_mem_nil, or_false, not_or] at hmem
  simp [isBreak, hmem]

theorem hasInnerSign_of_isUnquoted {cs : List Char} (hcs : ∀ d ∈ cs, isUnquoted d = true)
    (p : Char) :
    hasInnerSign p cs = false := by
  induction cs generalizing p with
  | nil => rfl
  | cons c cs ih =>
      have hmem := not_isUnquoted (hcs c List.mem_cons_self)
      simp only [List.mem_cons, List.not_mem_nil, or_false, not_or] at hmem
      simp [hasInnerSign, hmem, ih (fun d hd => hcs d (List.mem_cons_of_mem _ hd)) c]

/-- A word or a number may stand without quotes. -/
theorem standsPlain_of_isUnquoted {c : Char} {cs : List Char}
    (hchars : ∀ d ∈ c :: cs, isUnquoted d = true)
    (hfirst : c.isAlphanum = true ∨ c = '-' ∧ StartsDigit cs) : StandsPlain c cs := by
  have hmem := not_isUnquoted (hchars c List.mem_cons_self)
  simp only [List.mem_cons, List.not_mem_nil, or_false, not_or] at hmem
  have hsigns : "#,[]\x7b\x7d&*!|>'\"%@`".toList.contains c = false := by
    simp [hmem]
  refine ⟨?_, ?_, hasInnerSign_of_isUnquoted (fun d hd => hchars d (List.mem_cons_of_mem c hd)) c,
    fun d hd => ⟨isPrintable_of_isUnquoted (hchars d hd), not_isBreak_of_isUnquoted (hchars d hd)⟩,
    hmem.1, ?_⟩
  · obtain hc | ⟨rfl, d, ds, rfl, hd⟩ := hfirst
    · have hminus : c ≠ '-' := by
        rintro rfl
        exact absurd hc (by decide)
      have hdot : c ≠ '.' := by
        rintro rfl
        exact absurd hc (by decide)
      simp [startsLikeMarker, hminus, hdot]
    · have hminus := ne_of_isDigit hd (show '-'.isDigit = false by decide)
      simp [startsLikeMarker, hminus]
  · rw [isLeadingSign, hsigns]
    obtain hc | ⟨rfl, d, ds, rfl, hd⟩ := hfirst
    · have hminus : c ≠ '-' := by
        rintro rfl
        exact absurd hc (by decide)
      simp [hmem, hminus]
    · have hgap : isGap (some d) = false := by
        have hspace := ne_of_isDigit hd (show ' '.isDigit = false by decide)
        have htab := ne_of_isDigit hd (show '\t'.isDigit = false by decide)
        have hbreak :=
          not_isBreak_of_isUnquoted (c := d) (by simp [isUnquoted, Char.isAlphanum, hd])
        simp [isGap, isSpaceOrTab, hspace, htab, hbreak]
      simp [hgap]
  · intro hlast
    have hblank := not_isUnquoted (hchars ' ' (List.mem_of_getLast? hlast))
    simp at hblank

theorem standsPlain_signed {s : List Char} (hs : StartsDigit s)
    (hchars : ∀ d ∈ s, isUnquoted d = true) (negative : Bool) :
    ∃ c cs, signed negative s = c :: cs ∧ StandsPlain c cs := by
  obtain ⟨d, ds, rfl, hd⟩ := hs
  cases negative with
  | false =>
      exact ⟨d, ds, rfl, standsPlain_of_isUnquoted hchars (.inl (by simp [Char.isAlphanum, hd]))⟩
  | true =>
      refine ⟨'-', d :: ds, rfl, standsPlain_of_isUnquoted ?_ (.inr ⟨rfl, d, ds, rfl, hd⟩)⟩
      intro e he
      rcases List.mem_cons.mp he with rfl | he
      · decide
      · exact hchars e he

/-- The text of a number may stand without quotes. -/
theorem standsPlain_renderNumber (n : JsonNumber) :
    ∃ c cs, (Json.renderNumber n).toList = c :: cs ∧ StandsPlain c cs := by
  have hunquoted {c : Char} (hc : c.isDigit = true) : isUnquoted c = true := by
    simp [isUnquoted, Char.isAlphanum, hc]
  cases n with
  | whole n =>
      rw [Json.renderNumber, toList_toString_int]
      exact standsPlain_signed (startsDigit_toDigits _)
        (fun d hd => hunquoted (isDigit_of_mem_toDigits hd)) _
  | float x =>
      obtain ⟨s, n, e, hspells, htext, -⟩ := exists_spells_render x
      rw [Json.renderNumber, htext]
      refine standsPlain_signed hspells.startsDigit (fun d hd => ?_) _
      obtain hdigit | rfl | rfl | rfl := hspells.chars d hd
      · exact hunquoted hdigit
      all_goals decide

end PartDepot.Yaml
