import PartDepot.Number.Shortest
import PartDepot.Proofs.Rounding

/-!
# Doubles as decimal numbers

The shortest decimal number of a double reads as the double: every candidate of the search is tried,
and should none be found, the exact value is a decimal number too.
-/

namespace PartDepot.Binary64

/-! ## The width of a number -/

theorem length_toDigits_le {n k : Nat} (hk : 0 < k) (hn : n < 10 ^ k) :
    (Nat.toDigits 10 n).length ≤ k :=
  (Nat.length_toDigits_le_iff (by decide) hk).mpr hn

theorem length_toDigits_eq_iff {n : Nat} (hn : 0 < n) (w : Nat) :
    (Nat.toDigits 10 n).length = w + 1 ↔ 10 ^ w ≤ n ∧ n < 10 ^ (w + 1) := by
  have hle :=
    Nat.length_toDigits_le_iff (b := 10) (n := n) (k := w + 1) (by decide) (Nat.succ_pos w)
  cases w with
  | zero =>
      have hpos := Nat.length_toDigits_pos (b := 10) (n := n)
      simp only [pow_zero] at *
      omega
  | succ w =>
      have hlt :=
        Nat.length_toDigits_le_iff (b := 10) (n := n) (k := w + 1) (by decide) (Nat.succ_pos w)
      omega

theorem length_toDigits_mul {n : Nat} (hn : 0 < n) (j : Nat) :
    (Nat.toDigits 10 (n * 10 ^ j)).length = (Nat.toDigits 10 n).length + j := by
  obtain ⟨w, hw⟩ : ∃ w, (Nat.toDigits 10 n).length = w + 1 :=
    ⟨_, (Nat.succ_pred_eq_of_pos Nat.length_toDigits_pos).symm⟩
  obtain ⟨hle, hlt⟩ := (length_toDigits_eq_iff hn w).mp hw
  have hpos : 0 < n * 10 ^ j := by positivity
  rw [hw, Nat.add_right_comm, length_toDigits_eq_iff hpos]
  constructor
  · rw [pow_add]
    gcongr
  · rw [Nat.add_right_comm, pow_add]
    gcongr

/-! ## Powers of ten -/

/-- Zeros at the end of the digits count as much as a larger exponent. -/
theorem ofDecimal_shift (negative : Bool) (digits j : Nat) (exponent : Int) :
    ofDecimal negative (digits * 10 ^ j) exponent = ofDecimal negative digits (exponent + j) := by
  rcases Nat.eq_zero_or_pos digits with rfl | hdigits
  · simp [ofDecimal]
  have hne : digits * 10 ^ j ≠ 0 := by positivity
  have hwidth : (((Nat.toDigits 10 digits).length + j : Nat) : Int) + exponent =
      (Nat.toDigits 10 digits).length + (exponent + j) := by
    push_cast
    ring
  have hround :
      (if 0 ≤ exponent then roundQuotient negative (digits * 10 ^ j * Nat.pow 10 exponent.toNat) 1
      else roundQuotient negative (digits * 10 ^ j) (Nat.pow 10 (-exponent).toNat)) =
      if 0 ≤ exponent + j then roundQuotient negative (digits * Nat.pow 10 (exponent + j).toNat) 1
      else roundQuotient negative digits (Nat.pow 10 (-(exponent + j)).toNat) := by
    by_cases h : 0 ≤ exponent
    · have hexponent : (exponent + j).toNat = j + exponent.toNat := by omega
      rw [if_pos h, if_pos (by omega), hexponent, Nat.pow_eq, Nat.pow_eq, pow_add, Nat.mul_assoc]
    · rw [if_neg h]
      by_cases h' : 0 ≤ exponent + j
      · have hj : j = (exponent + j).toNat + (-exponent).toNat := by omega
        rw [if_pos h', Nat.pow_eq, Nat.pow_eq,
          ← roundQuotient_mul negative (digits * 10 ^ (exponent + j).toNat) one_pos
            (k := 10 ^ (-exponent).toNat) (by positivity), Nat.one_mul, Nat.mul_assoc,
            ← pow_add, ← hj]
      · have hexponent : (-exponent).toNat = (-(exponent + j)).toNat + j := by omega
        rw [if_neg h', Nat.pow_eq, Nat.pow_eq, hexponent, pow_add,
          roundQuotient_mul negative digits (by positivity) (by positivity)]
  simp only [ofDecimal, beq_iff_eq, hne, hdigits.ne', if_false, length_toDigits_mul hdigits,
    hwidth, hround]

/-! ## The search -/

theorem readsAs_of_searchShortest {x : Binary64} {num den fuel : Nat} {lead count : Int}
    {d : Decimal} (h : searchShortest x num den lead fuel count = some d) : readsAs x d = true := by
  induction fuel generalizing count with
  | zero => cases h
  | succ fuel ih =>
      cases hpair : neighbours num den (lead - count + 1) with
      | mk near far =>
          rw [searchShortest, hpair] at h
          simp only at h
          split at h
          · next hnear => rwa [← Option.some.inj h]
          · split at h
            · next hfar => rwa [← Option.some.inj h]
            · exact ih h

/-! ## The exact value -/

section Exact

variable (x : Binary64) (hx : 0 < x.significand)

include hx

theorem ofDecimal_exactDecimal_whole {k : Nat} (hk : x.exponent = k) :
    ofDecimal x.negative (x.significand * 2 ^ k) 0 = some x := by
  obtain ⟨hm, -, he', -⟩ := x.canonical
  have hbound : x.significand * 2 ^ k < 10 ^ 310 := by
    calc x.significand * 2 ^ k ≤ 2 ^ 53 * 2 ^ 971 :=
          Nat.mul_le_mul (by omega) (Nat.pow_le_pow_right (by decide) (by omega))
      _ < 10 ^ 310 := by decide +kernel
  have hwidth := length_toDigits_le (by decide) hbound
  have hne : x.significand * 2 ^ k ≠ 0 := by positivity
  rw [ofDecimal, if_neg (by simpa using hne), if_neg (by omega), if_neg (by omega),
    if_pos (by omega)]
  apply roundQuotient_exact x hx one_pos
  simp [hk]

/-- A power of two below one is a power of five over a power of ten. -/
theorem ofDecimal_exactDecimal_fraction {k : Nat} (hk : x.exponent = -(k : Int)) :
    ofDecimal x.negative (x.significand * 5 ^ k) (-(k : Int)) = some x := by
  obtain ⟨hm, he, -, -⟩ := x.canonical
  have hten : (10 : Nat) ^ k = 5 ^ k * 2 ^ k := by rw [← Nat.mul_pow]
  have hbound : x.significand * 5 ^ k < 10 ^ (16 + k) := by
    calc x.significand * 5 ^ k < 10 ^ 16 * 5 ^ k :=
          Nat.mul_lt_mul_of_pos_right (by omega) (by positivity)
      _ ≤ 10 ^ 16 * 10 ^ k := Nat.mul_le_mul_left _ (Nat.pow_le_pow_left (by decide) k)
      _ = 10 ^ (16 + k) := (pow_add 10 16 k).symm
  have hwidth := length_toDigits_le (by omega) hbound
  have hlow : k < (Nat.toDigits 10 (x.significand * 5 ^ k)).length + 330 := by
    by_contra hlow
    have hpos := Nat.length_toDigits_pos (b := 10) (n := x.significand * 5 ^ k)
    have hshort := (Nat.length_toDigits_le_iff (b := 10) (n := x.significand * 5 ^ k) (k := k - 330)
      (by decide) (by omega)).mp (by omega)
    have hsmall : 2 ^ k < 10 ^ 330 := by
      calc 2 ^ k ≤ 2 ^ 1074 := Nat.pow_le_pow_right (by decide) (by omega)
        _ < 10 ^ 330 := by decide +kernel
    have hcontra : (10 : Nat) ^ k < 10 ^ k := by
      calc (10 : Nat) ^ k = 5 ^ k * 2 ^ k := hten
        _ ≤ x.significand * 5 ^ k * 2 ^ k := Nat.mul_le_mul_right _ (Nat.le_mul_of_pos_left _ hx)
        _ ≤ 10 ^ (k - 330) * 2 ^ k := Nat.mul_le_mul_right _ hshort.le
        _ < 10 ^ (k - 330) * 10 ^ 330 := Nat.mul_lt_mul_of_pos_left hsmall (by positivity)
        _ = 10 ^ k := by rw [← pow_add]; congr 1; omega
    exact lt_irrefl _ hcontra
  have hne : x.significand * 5 ^ k ≠ 0 := by positivity
  have hvalue : ((x.significand * 5 ^ k : Nat) : ℚ) / ((10 ^ k : Nat) : ℚ) =
      x.significand * 2 ^ x.exponent := by
    rw [hten, hk, zpow_neg, zpow_natCast]
    push_cast
    field_simp
  rw [ofDecimal, if_neg (by simpa using hne), if_neg (by omega), if_neg (by omega)]
  rcases Nat.eq_zero_or_pos k with rfl | hpos
  · rw [if_pos (by simp)]
    apply roundQuotient_exact x hx one_pos
    simpa using hvalue
  · rw [if_neg (by omega), neg_neg, Int.toNat_natCast]
    exact roundQuotient_exact x hx (Nat.pow_pos (by decide)) hvalue

theorem readsAs_exactDecimal : readsAs x x.exactDecimal = true := by
  rw [readsAs, beq_iff_eq, exactDecimal]
  split
  · next h =>
    obtain ⟨k, hk⟩ := Int.eq_ofNat_of_zero_le h
    rw [hk]
    exact ofDecimal_exactDecimal_whole x hx hk
  · next h =>
    obtain ⟨k, hk⟩ := Int.eq_ofNat_of_zero_le (show 0 ≤ -x.exponent by omega)
    have hexponent : x.exponent = -(k : Int) := by omega
    rw [hk, hexponent]
    exact ofDecimal_exactDecimal_fraction x hx hexponent

theorem ofDecimal_shortest :
    ofDecimal x.negative x.shortest.digits x.shortest.exponent = some x := by
  have hreads : readsAs x x.shortest = true := by
    unfold shortest
    cases hsearch : searchShortest x x.magnitude.1 x.magnitude.2
        (leadingDecimal x.magnitude.1 x.magnitude.2) 17 1 with
    | none => simpa [hsearch] using readsAs_exactDecimal x hx
    | some d => simpa [hsearch] using readsAs_of_searchShortest hsearch
  simpa [readsAs] using hreads

theorem shortest_digits_pos : 0 < x.shortest.digits := by
  apply Nat.pos_of_ne_zero
  intro hzero
  have hread := ofDecimal_shortest x hx
  rw [hzero] at hread
  have hzero' : zero x.negative = x := by simpa [ofDecimal] using hread
  have : x.significand = 0 := by rw [← hzero']; rfl
  omega

end Exact

end PartDepot.Binary64
