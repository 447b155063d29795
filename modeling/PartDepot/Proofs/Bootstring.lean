import PartDepot.Url.Punycode

/-!
# Labels and their ASCII text

What the encoder writes for a label, the decoder reads as that label.  Both insert the
characters in the same order; a difference that the encoder writes is how far the decoder
has to go for the next one.
-/

namespace PartDepot.Punycode

/-! ## Differences -/

theorem digitValue?_digitChar {d : Nat} (h : d < 36) : digitValue? (digitChar d) = some d := by
  have all : ∀ e ∈ List.range 36, digitValue? (digitChar e) = some e := by decide
  exact all d (List.mem_range.mpr h)

/-- The characters of a difference. -/
def IsDigit (c : Char) : Prop := ∃ d < 36, c = digitChar d

theorem encodeDelta_ne_nil (bias position q : Nat) : encodeDelta bias position q ≠ [] := by
  unfold encodeDelta
  dsimp only
  split <;> simp

theorem isDigit_of_mem_encodeDelta {bias position q : Nat} {c : Char}
    (h : c ∈ encodeDelta bias position q) : IsDigit c := by
  fun_induction encodeDelta bias position q with
  | case1 position q t hlt =>
      have := threshold_le position bias
      exact ⟨q, by omega, List.mem_singleton.mp h⟩
  | case2 position q t hge ih =>
      have hle : t ≤ 26 := threshold_le position bias
      have hmod := Nat.mod_lt (q - t) (show 0 < 36 - t by omega)
      rcases List.mem_cons.mp h with rfl | hmem
      · exact ⟨_, by omega, rfl⟩
      · exact ih hmem

theorem decodeDelta_encodeDelta (bias position q weight place : Nat) (rest : List Char) :
    decodeDelta bias position weight place (encodeDelta bias position q ++ rest) =
      some (place + q * weight, rest) := by
  fun_induction encodeDelta bias position q generalizing weight place with
  | case1 position q t hlt =>
      have hle : t ≤ 26 := threshold_le position bias
      have hlt' : q < threshold position bias := hlt
      simp [decodeDelta, digitValue?_digitChar (show q < 36 by omega), hlt']
  | case2 position q t hge ih =>
      have hle : t ≤ 26 := threshold_le position bias
      have hmod := Nat.mod_lt (q - t) (show 0 < 36 - t by omega)
      have hdigit : t + (q - t) % (36 - t) < 36 := by omega
      have hmore : ¬t + (q - t) % (36 - t) < threshold position bias := by
        change ¬t + (q - t) % (36 - t) < t
        omega
      rw [List.cons_append, decodeDelta]
      simp only [digitValue?_digitChar hdigit, Option.bind_eq_bind, Option.bind_some, hmore,
        if_false]
      rw [show threshold position bias = t from rfl, ih]
      have hq : t + (q - t) % (36 - t) + (q - t) / (36 - t) * (36 - t) = q := by
        have := Nat.mod_add_div' (q - t) (36 - t)
        omega
      have hsum : place + (t + (q - t) % (36 - t)) * weight +
          (q - t) / (36 - t) * (weight * (36 - t)) = place + q * weight := by
        calc
          _ = place + (t + (q - t) % (36 - t) + (q - t) / (36 - t) * (36 - t)) * weight := by
            rw [Nat.mul_comm weight, ← Nat.mul_assoc, Nat.add_assoc, ← Nat.add_mul]
          _ = _ := by rw [hq]
      rw [hsum]

/-! ## One character -/

/-- The decoder between two differences. -/
structure Reader where
  code : Nat
  place : Nat
  bias : Nat
  out : List Char

namespace Reader

def finish (r : Reader) (fuel : Nat) (text : List Char) : Option (List Char) :=
  decodeCodes fuel r.code r.place r.bias r.out text

/-- A text takes one reader to another, whatever stands behind it. -/
def Passes (r : Reader) (text : List Char) (r' : Reader) : Prop :=
  ∀ (fuel : Nat) (tail : List Char), text.length + tail.length < fuel →
    ∃ fuel', tail.length < fuel' ∧ r.finish fuel (text ++ tail) = r'.finish fuel' tail

variable {r r' r'' : Reader} {text text' : List Char}

theorem Passes.refl (r : Reader) : r.Passes [] r := fun fuel tail hfuel =>
  ⟨fuel, by simpa using hfuel, rfl⟩

theorem Passes.trans (h : r.Passes text r') (h' : r'.Passes text' r'') :
    r.Passes (text ++ text') r'' := by
  intro fuel tail hfuel
  obtain ⟨fuel', hfuel', heq⟩ := h fuel (text' ++ tail) (by simp at hfuel ⊢; omega)
  obtain ⟨fuel'', hfuel'', heq'⟩ := h' fuel' tail (by simpa using hfuel')
  exact ⟨fuel'', hfuel'', by rw [List.append_assoc, heq, heq']⟩

/-- The reader after a difference that leads to a place for a character. -/
theorem passes_encodeDelta {c : Char} {pos delta : Nat} (hpos : pos ≤ r.out.length)
    (hsum : (r.out.length + 1) * c.toNat + pos = (r.out.length + 1) * r.code + (r.place + delta)) :
    r.Passes (encodeDelta r.bias 36 delta)
      ⟨c.toNat, pos + 1, adapt delta (r.out.length + 1) (r.place == 0),
        r.out.take pos ++ c :: r.out.drop pos⟩ := by
  intro fuel tail hfuel
  obtain ⟨first, more, htext⟩ := List.exists_cons_of_ne_nil (encodeDelta_ne_nil r.bias 36 delta)
  obtain ⟨fuel, rfl⟩ : ∃ k, fuel = k + 1 := ⟨fuel - 1, by omega⟩
  refine ⟨fuel, by simp [htext] at hfuel; omega, ?_⟩
  have hread := decodeDelta_encodeDelta r.bias 36 delta 1 r.place tail
  rw [Nat.mul_one, htext, List.cons_append] at hread
  have hcode : r.code + (r.place + delta) / (r.out.length + 1) = c.toNat := by
    rw [← Nat.mul_add_div (Nat.succ_pos _), ← hsum, Nat.mul_add_div (Nat.succ_pos _),
      Nat.div_eq_of_lt (Nat.lt_succ_of_le hpos), Nat.add_zero]
  have hplace : (r.place + delta) % (r.out.length + 1) = pos := by
    rw [← Nat.mul_add_mod _ r.code, ← hsum, Nat.mul_add_mod,
      Nat.mod_eq_of_lt (Nat.lt_succ_of_le hpos)]
  have hvalid : ¬((decide (0x10FFFF < c.toNat) ||
      (decide (0xD800 ≤ c.toNat) && decide (c.toNat ≤ 0xDFFF))) = true) := by
    have hc : c.toNat.isValidChar := c.valid
    unfold Nat.isValidChar at hc
    simp only [Bool.or_eq_true, Bool.and_eq_true, decide_eq_true_eq]
    omega
  unfold finish
  rw [htext, List.cons_append, decodeCodes]
  · rw [hread]
    dsimp only [Option.bind_eq_bind, Option.bind_some]
    rw [hcode, hplace, if_neg hvalid, Char.ofNat_toNat, Nat.add_sub_cancel_left]
  · exact List.cons_ne_nil _ _

end Reader

/-- The characters of a label with codes below `m`. -/
def below (m : Nat) (label : List Char) : List Char := label.filter (·.toNat < m)

@[simp] theorem below_nil (m : Nat) : below m [] = [] := rfl

@[simp] theorem below_append (m : Nat) (l l' : List Char) :
    below m (l ++ l') = below m l ++ below m l' := List.filter_append ..

theorem below_cons_of_lt {m : Nat} {c : Char} (h : c.toNat < m) (l : List Char) :
    below m (c :: l) = c :: below m l := List.filter_cons_of_pos (by simpa using h)

theorem below_cons_of_le {m : Nat} {c : Char} (h : m ≤ c.toNat) (l : List Char) :
    below m (c :: l) = below m l := List.filter_cons_of_neg (by simpa using h)

/-- Encoder and decoder at the same point of a label.  Inserted are the characters with codes below
`m`, and those with the code `m` in the front part of the label. -/
structure Meets (basic m : Nat) (front back : List Char) (s : State) (r : Reader) : Prop where
  bias : s.bias = r.bias
  out : r.out = below (m + 1) front ++ below m back
  done : s.done = r.out.length
  /-- The difference leads from where the decoder is to the next place for the code `m`. -/
  way : (r.out.length + 1) * m + (below (m + 1) front).length =
    (r.out.length + 1) * r.code + (r.place + s.delta)
  first : (s.done == basic) = (r.place == 0)
  basic_le : basic ≤ s.done

namespace Meets

variable {basic m n : Nat} {front back label : List Char} {c : Char} {s : State} {r : Reader}

theorem writeCode (h : Meets basic m front (c :: back) s r) :
    ∃ text r', (writeCode basic m s c).out = s.out ++ text ∧ r.Passes text r' ∧
      Meets basic m (front ++ [c]) back (writeCode basic m s c) r' := by
  obtain ⟨hbias, hout, hdone, hway, hfirst, hbasic⟩ := h
  unfold Punycode.writeCode
  rcases Nat.lt_trichotomy c.toNat m with hlt | rfl | hgt
  · -- the character stands there already, and the way leads past it
    rw [if_pos hlt]
    rw [below_cons_of_lt hlt] at hout
    have hfront : below (m + 1) [c] = [c] := below_cons_of_lt (by omega) []
    refine ⟨[], r, (List.append_nil _).symm, Reader.Passes.refl r, hbias, ?_, hdone, ?_, hfirst,
      hbasic⟩
    · simp [hout, hfront]
    · simp only [below_append, hfront, List.length_append, List.length_singleton]
      omega
  · rw [if_neg (Nat.lt_irrefl _), if_pos rfl]
    rw [below_cons_of_le (Nat.le_refl _)] at hout
    have hfront : below (c.toNat + 1) [c] = [c] := below_cons_of_lt (by omega) []
    have hpos : (below (c.toNat + 1) front).length ≤ r.out.length := by simp [hout]
    have hgrown : r.out.take (below (c.toNat + 1) front).length ++
        c :: r.out.drop (below (c.toNat + 1) front).length =
        below (c.toNat + 1) (front ++ [c]) ++ below c.toNat back := by
      simp [hout, hfront]
    refine ⟨_, _, rfl, hbias ▸ Reader.passes_encodeDelta hpos hway, ?_, hgrown, ?_, ?_, ?_, ?_⟩
    · dsimp only
      rw [hfirst, hdone]
    · simp only [List.length_append, List.length_cons, List.length_take, List.length_drop]
      omega
    · simp [hfront]
    · simp
      omega
    · dsimp only
      omega
  · -- the character comes later
    rw [if_neg (by omega), if_neg (by omega)]
    rw [below_cons_of_le (by omega)] at hout
    have hfront : below (m + 1) [c] = [] := below_cons_of_le (by omega) []
    refine ⟨[], r, (List.append_nil _).symm, Reader.Passes.refl r, hbias, ?_, hdone, ?_, hfirst,
      hbasic⟩
    · simp [hout, hfront]
    · simpa [hfront] using hway

theorem foldl_writeCode (h : Meets basic m front back s r) :
    ∃ text r', (back.foldl (Punycode.writeCode basic m) s).out = s.out ++ text ∧ r.Passes text r' ∧
      Meets basic m (front ++ back) [] (back.foldl (Punycode.writeCode basic m) s) r' := by
  induction back generalizing front s r with
  | nil => exact ⟨[], r, (List.append_nil _).symm, Reader.Passes.refl r, by simpa using h⟩
  | cons c back ih =>
      obtain ⟨text, r', hout, hpass, hmeets⟩ := h.writeCode
      obtain ⟨text', r'', hout', hpass', hmeets'⟩ := ih hmeets
      refine ⟨text ++ text', r'', ?_, hpass.trans hpass', ?_⟩
      · rw [List.foldl_cons, hout', hout, List.append_assoc]
      · rw [List.append_assoc, List.singleton_append] at hmeets'
        exact hmeets'

/-- After the whole label, the next code. -/
theorem next (h : Meets basic m label [] s r) :
    Meets basic (m + 1) [] label { s with delta := s.delta + 1 } r := by
  obtain ⟨hbias, hout, hdone, hway, hfirst, hbasic⟩ := h
  refine ⟨hbias, by simpa using hout, hdone, ?_, hfirst, hbasic⟩
  have hlen : r.out.length = (below (m + 1) label).length := by simp [hout]
  dsimp only [below_nil, List.length_nil]
  rw [Nat.mul_add]
  omega

/-- Codes that no character has are passed over. -/
theorem skip (h : Meets basic n [] label s r) (hle : n ≤ m)
    (hnone : ∀ c ∈ label, c.toNat < m → c.toNat < n) :
    Meets basic m [] label { s with delta := s.delta + (m - n) * (s.done + 1) } r := by
  obtain ⟨hbias, hout, hdone, hway, hfirst, hbasic⟩ := h
  refine ⟨hbias, ?_, hdone, ?_, hfirst, hbasic⟩
  · have hsame : below n label = below m label := by
      apply List.filter_congr
      intro c hc
      have := hnone c hc
      rw [decide_eq_decide]
      omega
    rw [hout, hsame]
    rfl
  · obtain ⟨k, rfl⟩ := Nat.exists_eq_add_of_le hle
    dsimp only [below_nil, List.length_nil] at hway ⊢
    rw [Nat.add_sub_cancel_left, hdone, Nat.mul_add, Nat.mul_comm k]
    omega

/-- What the encoder writes for the codes that are left lets the decoder finish the label. -/
theorem writeCodes {codes : List Nat} (h : Meets basic n [] label s r)
    (hsorted : codes.Pairwise (· < ·)) (hlow : ∀ m ∈ codes, n ≤ m)
    (hall : ∀ c ∈ label, n ≤ c.toNat → c.toNat ∈ codes) :
    ∃ text, (writeCodes label basic codes n s).out = s.out ++ text ∧
      ∀ fuel, text.length < fuel → r.finish fuel text = some label := by
  induction codes generalizing n s r with
  | nil =>
      refine ⟨[], (List.append_nil _).symm, fun fuel hfuel => ?_⟩
      obtain ⟨fuel, rfl⟩ : ∃ k, fuel = k + 1 := ⟨fuel - 1, by simp at hfuel; omega⟩
      have hwhole : below n label = label := by
        rw [below, List.filter_eq_self]
        intro c hc
        have hlt : ¬n ≤ c.toNat := fun hle => List.not_mem_nil (hall c hc hle)
        simpa using hlt
      have hout : r.out = label := by rw [h.out, hwhole]; rfl
      rw [← hout]
      rfl
  | cons m codes ih =>
      obtain ⟨hfirst, hsorted⟩ := List.pairwise_cons.mp hsorted
      have hle := hlow m List.mem_cons_self
      have hnone : ∀ c ∈ label, c.toNat < m → c.toNat < n := fun c hc hlt => by
        refine Nat.lt_of_not_le fun hge => ?_
        rcases List.mem_cons.mp (hall c hc hge) with heq | hmem
        · omega
        · exact Nat.lt_asymm hlt (hfirst _ hmem)
      have hrest : ∀ c ∈ label, m + 1 ≤ c.toNat → c.toNat ∈ codes := fun c hc hge => by
        rcases List.mem_cons.mp (hall c hc (by omega)) with heq | hmem
        · omega
        · exact hmem
      obtain ⟨text, r', hout, hpass, hmeets⟩ := (h.skip hle hnone).foldl_writeCode
      obtain ⟨text', hout', hfinish⟩ := ih hmeets.next hsorted hfirst hrest
      refine ⟨text ++ text', ?_, fun fuel hfuel => ?_⟩
      · rw [Punycode.writeCodes, hout', hout, List.append_assoc]
      · obtain ⟨fuel', hfuel', heq⟩ := hpass fuel text' (by simpa using hfuel)
        rw [heq, hfinish fuel' hfuel']

end Meets

/-! ## Labels -/

theorem pairwise_eraseDups : ∀ {l : List Nat}, l.Pairwise (· ≤ ·) → l.eraseDups.Pairwise (· < ·)
  | [], _ => .nil
  | a :: l, h => by
    obtain ⟨hhead, htail⟩ := List.pairwise_cons.mp h
    rw [List.eraseDups_cons, List.pairwise_cons]
    refine ⟨fun b hb => ?_, pairwise_eraseDups (htail.filter _)⟩
    obtain ⟨hmem, hne⟩ := List.mem_filter.mp (List.mem_eraseDups.mp hb)
    have hle := hhead b hmem
    have : b ≠ a := by simpa using hne
    omega
termination_by l => l.length
decreasing_by exact Nat.lt_succ_of_le (List.length_filter_le ..)

/-- The codes beyond ASCII that a label has. -/
def highCodes (label : List Char) : List Nat :=
  (((label.filter (0x80 ≤ ·.toNat)).map Char.toNat).mergeSort (· ≤ ·)).eraseDups

theorem pairwise_highCodes (label : List Char) : (highCodes label).Pairwise (· < ·) := by
  apply pairwise_eraseDups
  have hsorted := @List.pairwise_mergeSort Nat (fun a b => decide (a ≤ b))
    (fun a b c hab hbc => by simp at hab hbc ⊢; omega) (fun a b => by simp; omega)
    ((label.filter (0x80 ≤ ·.toNat)).map Char.toNat)
  exact hsorted.imp fun hle => by simpa using hle

theorem mem_highCodes {label : List Char} {m : Nat} :
    m ∈ highCodes label ↔ ∃ c ∈ label, 0x80 ≤ c.toNat ∧ c.toNat = m := by
  simp [highCodes, and_assoc]

/-- The digits of a label, behind its ASCII characters. -/
def digits (label : List Char) : List Char :=
  (writeCodes label (below 0x80 label).length (highCodes label) 0x80
    ⟨[], 0, 72, (below 0x80 label).length⟩).out

theorem encode_eq (label : List Char) : encode label =
    (if (below 0x80 label).isEmpty then [] else below 0x80 label ++ ['-']) ++ digits label := rfl

/-- So far only digits were written. -/
def State.Digital (s : State) : Prop := ∀ d ∈ s.out, IsDigit d

namespace State.Digital

variable {basic m n : Nat} {s : State}

theorem writeCode (h : s.Digital) (c : Char) : (writeCode basic m s c).Digital := by
  unfold Punycode.writeCode
  split
  · exact h
  · split
    · intro d hd
      rcases List.mem_append.mp hd with hmem | hmem
      · exact h d hmem
      · exact isDigit_of_mem_encodeDelta hmem
    · exact h

theorem foldl_writeCode (h : s.Digital) (back : List Char) :
    (back.foldl (Punycode.writeCode basic m) s).Digital := by
  induction back generalizing s with
  | nil => exact h
  | cons c back ih => exact ih (h.writeCode c)

theorem writeCodes (h : s.Digital) (label : List Char) (codes : List Nat) :
    (writeCodes label basic codes n s).Digital := by
  induction codes generalizing n s with
  | nil => exact h
  | cons m codes ih =>
      let skipped : State := { s with delta := s.delta + (m - n) * (s.done + 1) }
      have hskipped : skipped.Digital := h
      exact ih (hskipped.foldl_writeCode label)

end State.Digital

theorem isDigit_of_mem_digits {label : List Char} {d : Char} (h : d ∈ digits label) : IsDigit d :=
  State.Digital.writeCodes (fun _ hd => absurd hd List.not_mem_nil) label (highCodes label) d h

theorem IsDigit.ne_hyphen {c : Char} (h : IsDigit c) : c ≠ '-' := by
  obtain ⟨d, hd, rfl⟩ := h
  have all : ∀ e ∈ List.range 36, digitChar e ≠ '-' := by decide
  exact all d (List.mem_range.mpr hd)

theorem decodeCodes_digits (label : List Char) :
    decodeCodes ((digits label).length + 1) 0x80 0 72 (below 0x80 label) (digits label) =
      some label := by
  have hstart : Meets (below 0x80 label).length 0x80 [] label
      ⟨[], 0, 72, (below 0x80 label).length⟩ ⟨0x80, 0, 72, below 0x80 label⟩ :=
    ⟨rfl, rfl, rfl, rfl, by simp, Nat.le_refl _⟩
  obtain ⟨text, hout, hfinish⟩ := hstart.writeCodes (pairwise_highCodes label)
    (fun m hm => by obtain ⟨c, -, hhigh, rfl⟩ := mem_highCodes.mp hm; exact hhigh)
    (fun c hc hhigh => mem_highCodes.mpr ⟨c, hc, hhigh, rfl⟩)
  obtain rfl : digits label = text := hout
  exact hfinish _ (Nat.lt_succ_self _)

theorem decode_encode (label : List Char) : decode (encode label) = some label := by
  have hdigits : ∀ c ∈ (digits label).reverse, (c != '-') = true := fun c hc => by
    simpa using (isDigit_of_mem_digits (List.mem_reverse.mp hc)).ne_hyphen
  have hafter : ((encode label).reverse.takeWhile (· != '-')).reverse = digits label := by
    rw [encode_eq, List.reverse_append, List.takeWhile_append_of_pos hdigits]
    split <;> simp
  have hbasic : (encode label).take ((encode label).length - (digits label).length - 1) =
      below 0x80 label := by
    rw [encode_eq]
    split
    · next hnone => simp [List.isEmpty_iff.mp hnone]
    · have hlen : (below 0x80 label ++ ['-'] ++ digits label).length - (digits label).length - 1 =
          (below 0x80 label).length := by
        simp only [List.length_append, List.length_singleton]
        omega
      rw [hlen, List.append_assoc, List.take_left]
  have hlow : (below 0x80 label).any (0x80 ≤ ·.toNat) = false := by
    simp [below]
  unfold decode
  rw [hafter]
  dsimp only
  rw [hbasic, hlow]
  exact decodeCodes_digits label

theorem basic_subset_encode (label : List Char) : below 0x80 label ⊆ encode label := fun c hc => by
  rw [encode_eq, if_neg (by simpa using List.ne_nil_of_mem hc)]
  simp [hc]

theorem mem_encode {label : List Char} {c : Char} (h : c ∈ encode label) :
    c ∈ below 0x80 label ∨ c = '-' ∨ IsDigit c := by
  rw [encode_eq] at h
  rcases List.mem_append.mp h with hstart | hdigit
  · split at hstart
    · simp at hstart
    · simpa [or_assoc] using Or.inl (b := IsDigit c) (List.mem_append.mp hstart)
  · exact .inr (.inr (isDigit_of_mem_digits hdigit))

end PartDepot.Punycode
