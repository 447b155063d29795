import Mathlib.Data.List.TakeWhile
import PartDepot.Proofs.Decimals
import PartDepot.Yaml.Resolve

/-!
# How numbers are spelled

A decimal number is laid out with a point, an exponent or both.  Whatever the layout, the text is
read as a decimal number that rounds to the same double.
-/

namespace PartDepot.Yaml

/-! ## Digits -/

/-- A number that has been read so far with one more digit. -/
def addDigit (base : Nat) (n : Option Nat) (c : Char) : Option Nat := do
  let n ← n
  let d ← Text.hexValue? c
  if d < base then some (n * base + d) else none

theorem digits?_eq_foldl {base : Nat} {s : List Char} (hnil : s ≠ []) :
    digits? base s = s.foldl (addDigit base) (some 0) := by
  rw [digits?, if_neg (by simpa using hnil)]
  rfl

theorem foldl_addDigit_none (base : Nat) (s : List Char) : s.foldl (addDigit base) none = none := by
  induction s with
  | nil => rfl
  | cons c s ih => exact ih

theorem lt_ten_of_isDigit {c : Char} (hc : c.isDigit = true) : c.toNat - '0'.toNat < 10 := by
  have hrange : 48 ≤ c.val ∧ c.val ≤ 57 := by simpa [Char.isDigit] using hc
  have hle : c.toNat ≤ 57 := UInt32.le_iff_toNat_le.mp hrange.2
  have hzero : '0'.toNat = 48 := rfl
  omega

theorem addDigit_of_isDigit {c : Char} (hc : c.isDigit = true) (n : Nat) :
    addDigit 10 (some n) c = some (10 * n + (c.toNat - '0'.toNat)) := by
  have hlt := lt_ten_of_isDigit hc
  have hvalue : Text.hexValue? c = some (c.toNat - '0'.toNat) := by rw [Text.hexValue?, if_pos hc]
  simp only [addDigit, hvalue, Option.bind_eq_bind, Option.bind_some, if_pos hlt, Nat.mul_comm]

section Digits

variable {s : List Char}

theorem digits?_of_isDigit (hnil : s ≠ []) (hs : ∀ c ∈ s, c.isDigit = true) :
    digits? 10 s = some (Nat.ofDigitChars 10 s 0) := by
  rw [digits?_eq_foldl hnil]
  clear hnil
  generalize 0 = n
  induction s generalizing n with
  | nil => rfl
  | cons c s ih =>
      rw [List.foldl_cons, addDigit_of_isDigit (hs c List.mem_cons_self), Nat.ofDigitChars_cons,
        ih (fun d hd => hs d (List.mem_cons_of_mem c hd))]

theorem isDigit_of_mem_toDigits {n : Nat} {c : Char} (hc : c ∈ Nat.toDigits 10 n) :
    c.isDigit = true :=
  Nat.isDigit_of_mem_toDigits (by decide) (by decide) hc

theorem digits?_toDigits (n : Nat) : digits? 10 (Nat.toDigits 10 n) = some n := by
  rw [digits?_of_isDigit Nat.toDigits_ne_nil fun c => isDigit_of_mem_toDigits,
    Nat.ofDigitChars_ten_toDigits]

theorem digits?_eq_none {base : Nat} {c : Char} (hc : c ∈ s)
    (hdigit : ∀ d ∈ Text.hexValue? c, base ≤ d) : digits? base s = none := by
  obtain ⟨before, after, rfl⟩ := List.append_of_mem hc
  have hstep (n : Option Nat) : addDigit base n c = none := by
    cases n with
    | none => rfl
    | some n =>
        cases hvalue : Text.hexValue? c with
        | none => simp [addDigit, hvalue]
        | some d => simpa [addDigit, hvalue] using hdigit d hvalue
  rw [digits?_eq_foldl (by simp), List.foldl_append, List.foldl_cons, hstep, foldl_addDigit_none]

theorem ofDigitChars_lt (hs : ∀ c ∈ s, c.isDigit = true) :
    Nat.ofDigitChars 10 s 0 < 10 ^ s.length := by
  induction s with
  | nil => simp
  | cons c s ih =>
      have hc := hs c List.mem_cons_self
      have hlt := lt_ten_of_isDigit hc
      have hrest := ih fun d hd => hs d (List.mem_cons_of_mem c hd)
      rw [Nat.ofDigitChars_cons, Nat.ofDigitChars_eq_ofDigitChars_zero, List.length_cons, pow_succ]
      calc 10 ^ s.length * (10 * 0 + (c.toNat - '0'.toNat)) + Nat.ofDigitChars 10 s 0
          < 10 ^ s.length * (10 * 0 + (c.toNat - '0'.toNat)) + 10 ^ s.length := by omega
        _ = 10 ^ s.length * (c.toNat - '0'.toNat + 1) := by ring
        _ ≤ 10 ^ s.length * 10 := Nat.mul_le_mul_left _ hlt

/-- The digits of a number have no zero in front. -/
theorem hasLeadingZero_toDigits (n : Nat) : hasLeadingZero (Nat.toDigits 10 n) = false := by
  have hdigits : ∀ c ∈ Nat.toDigits 10 n, c.isDigit = true := fun c => isDigit_of_mem_toDigits
  have hvalue : Nat.ofDigitChars 10 (Nat.toDigits 10 n) 0 = n := Nat.ofDigitChars_ten_toDigits
  cases hchars : Nat.toDigits 10 n with
  | nil => rfl
  | cons c cs =>
      rw [hchars] at hdigits hvalue
      have hsign : c ≠ '-' ∧ c ≠ '+' := by
        have hc := hdigits c List.mem_cons_self
        constructor <;> rintro rfl <;> exact absurd hc (by decide)
      by_cases hzero : c = '0'
      · subst hzero
        -- A zero in front would make the number shorter than its digits.
        have hcs : cs = [] := by
          by_contra hcs
          have hlt := ofDigitChars_lt fun d hd => hdigits d (List.mem_cons_of_mem _ hd)
          rw [Nat.ofDigitChars_cons] at hvalue
          rw [show 10 * 0 + ('0'.toNat - '0'.toNat) = 0 from rfl] at hvalue
          rw [hvalue] at hlt
          have hle := Binary64.length_toDigits_le (List.length_pos_of_ne_nil hcs) hlt
          rw [hchars, List.length_cons] at hle
          omega
        subst hcs
        rfl
      · unfold hasLeadingZero
        simp [hsign, hzero]

end Digits

/-! ## Fractions -/

theorem takeWhile_isDigit {ws tail : List Char} (hws : ∀ c ∈ ws, c.isDigit = true)
    (htail : ∀ c ∈ tail.head?, c.isDigit = false) :
    (ws ++ tail).takeWhile Char.isDigit = ws ∧ (ws ++ tail).dropWhile Char.isDigit = tail := by
  induction ws with
  | nil =>
      cases tail with
      | nil => simp
      | cons c tail => simp [htail c rfl]
  | cons c ws ih =>
      have hrest := ih fun d hd => hws d (List.mem_cons_of_mem c hd)
      simp [hws c List.mem_cons_self, hrest]

/-- The end of a fraction, an exponent perhaps, with the value of that. -/
inductive IsExponent : List Char → Int → Prop
  | none : IsExponent [] 0
  | up (n : Nat) : IsExponent ('e' :: Nat.toDigits 10 n) n
  | down (n : Nat) : IsExponent ('e' :: '-' :: Nat.toDigits 10 n) (-n)

/-- A number with its sign. -/
def signed (negative : Bool) (s : List Char) : List Char := if negative then '-' :: s else s

theorem toList_toString_int (n : Int) :
    (toString n).toList = signed (decide (n < 0)) (Nat.toDigits 10 n.natAbs) := by
  cases n with
  | ofNat n =>
      have hsign : decide (Int.ofNat n < 0) = false := by simp
      rw [hsign, show toString (Int.ofNat n) = toString n from rfl, Nat.toString_eq_ofList_toDigits,
        String.toList_ofList]
      rfl
  | negSucc n =>
      have hsign : decide (Int.negSucc n < 0) = true := decide_eq_true (Int.negSucc_lt_zero n)
      rw [hsign, show toString (Int.negSucc n) = "-" ++ toString (n + 1) from rfl,
        String.toList_append, Nat.toString_eq_ofList_toDigits, String.toList_ofList,
        String.toList_ofList]
      rfl

theorem isExponent_toString (p : Int) : IsExponent ('e' :: (toString p).toList) p := by
  rw [toList_toString_int]
  by_cases hp : p < 0
  · have hvalue : -(p.natAbs : Int) = p := by omega
    have h := IsExponent.down p.natAbs
    rw [hvalue] at h
    simpa [signed, hp] using h
  · have hvalue : (p.natAbs : Int) = p := by omega
    have h := IsExponent.up p.natAbs
    rw [hvalue] at h
    simpa [signed, hp] using h

theorem IsExponent.head {tail : List Char} {e : Int} (h : IsExponent tail e) :
    ∀ c ∈ tail.head?, c.isDigit = false := by
  cases h with
  | none => simp
  | up n =>
      rintro c ⟨⟩
      decide
  | down n =>
      rintro c ⟨⟩
      decide

/-- A text spells the decimal number `n * 10 ^ e`, and not as a whole number: behind its first
digits comes a point with more digits perhaps, an exponent, or both. -/
inductive Spells : List Char → Nat → Int → Prop
  | point {ws fs tail : List Char} {e : Int} (hws : ∀ c ∈ ws, c.isDigit = true)
      (hfs : ∀ c ∈ fs, c.isDigit = true) (hnil : ws ≠ []) (htail : IsExponent tail e) :
      Spells (ws ++ '.' :: (fs ++ tail)) (Nat.ofDigitChars 10 (ws ++ fs) 0) (e - fs.length)
  | bare {ws tail : List Char} {e : Int} (hws : ∀ c ∈ ws, c.isDigit = true) (hnil : ws ≠ [])
      (htail : IsExponent tail e) (hexponent : tail ≠ []) :
      Spells (ws ++ tail) (Nat.ofDigitChars 10 ws 0) e

namespace Spells

variable {s : List Char} {n : Nat} {e : Int}

theorem decimal?_eq (h : Spells s n e) (negative : Bool) :
    decimal? negative s = Binary64.ofDecimal negative n e := by
  -- The digits of an exponent do not start with a sign.
  have hsign (n : Nat) : ∃ c cs, Nat.toDigits 10 n = c :: cs ∧ c ≠ '-' ∧ c ≠ '+' := by
    obtain ⟨c, cs, hchars⟩ := List.exists_cons_of_ne_nil (Nat.toDigits_ne_nil (n := n) (b := 10))
    have hc : c.isDigit = true := isDigit_of_mem_toDigits (n := n) (by simp [hchars])
    exact ⟨c, cs, hchars, by rintro rfl; exact absurd hc (by decide),
      by rintro rfl; exact absurd hc (by decide)⟩
  unfold decimal?
  cases h with
  | @point ws fs tail e hws hfs hnil htail =>
      obtain ⟨htake, hdrop⟩ := takeWhile_isDigit hws
        (show ∀ c ∈ ('.' :: (fs ++ tail)).head?, c.isDigit = false by rintro c ⟨⟩; decide)
      obtain ⟨htake', hdrop'⟩ := takeWhile_isDigit hfs htail.head
      have hdigits := digits?_of_isDigit (s := ws ++ fs) (by simp [hnil])
        fun c hc => (List.mem_append.mp hc).elim (hws c) (hfs c)
      simp only [htake, hdrop, htake', hdrop']
      cases htail with
      | none => simp [hnil, hdigits]
      | down n => simp [hnil, hdigits, digits?_toDigits]
      | up n =>
          have hread := digits?_toDigits n
          obtain ⟨c, cs, hchars, hminus, hplus⟩ := hsign n
          rw [hchars] at hread ⊢
          simp [hnil, hdigits, hread, hminus, hplus]
  | @bare ws tail _ hws hnil htail hexponent =>
      obtain ⟨htake, hdrop⟩ := takeWhile_isDigit hws htail.head
      have hdigits := digits?_of_isDigit hnil hws
      simp only [htake, hdrop]
      cases htail with
      | none => exact absurd rfl hexponent
      | down n => simp [hnil, hdigits, digits?_toDigits]
      | up n =>
          have hread := digits?_toDigits n
          obtain ⟨c, cs, hchars, hminus, hplus⟩ := hsign n
          rw [hchars] at hread ⊢
          simp [hnil, hdigits, hread, hminus, hplus]

end Spells

/-! ## The layout of a decimal number -/

/-- The digits of a number without the zeros at their end. -/
theorem exists_digits {n : Nat} (hn : 0 < n) : ∃ ds j,
    ((Nat.toDigits 10 n).reverse.dropWhile (· == '0')).reverse = ds ∧
      (Nat.toDigits 10 n).length - ds.length = j ∧ (∀ c ∈ ds, c.isDigit = true) ∧ ds ≠ [] ∧
      n = Nat.ofDigitChars 10 ds 0 * 10 ^ j := by
  have hvalue : Nat.ofDigitChars 10 (Nat.toDigits 10 n) 0 = n := Nat.ofDigitChars_ten_toDigits
  have hall : ∀ c ∈ Nat.toDigits 10 n, c.isDigit = true := fun c => isDigit_of_mem_toDigits
  generalize Nat.toDigits 10 n = all at *
  have hzeros : (all.reverse.takeWhile (· == '0')).reverse =
      List.replicate (all.reverse.takeWhile (· == '0')).length '0' := by
    rw [← List.length_reverse]
    apply List.eq_replicate_of_mem
    intro c hc
    simpa using List.mem_takeWhile_imp (List.mem_reverse.mp hc)
  have hsplit : all = (all.reverse.dropWhile (· == '0')).reverse ++
      List.replicate (all.reverse.takeWhile (· == '0')).length '0' := by
    rw [← hzeros, ← List.reverse_append, List.takeWhile_append_dropWhile, List.reverse_reverse]
  generalize (all.reverse.dropWhile (· == '0')).reverse = ds at *
  generalize (all.reverse.takeWhile (· == '0')).length = j at *
  subst hsplit
  have hvalue' : n = Nat.ofDigitChars 10 ds 0 * 10 ^ j := by
    rw [← hvalue, Nat.ofDigitChars_append, Nat.ofDigitChars_replicate_zero, Nat.mul_comm]
  refine ⟨ds, j, rfl, by simp, fun c hc => hall c (List.mem_append_left _ hc), ?_, hvalue'⟩
  rintro rfl
  simp at hvalue'
  omega

/-- A text spells a decimal number that rounds as `n * 10 ^ e` does. -/
def SpellsLike (s : List Char) (n : Nat) (e : Int) : Prop :=
  ∃ n' e', Spells s n' e' ∧
    ∀ negative, Binary64.ofDecimal negative n' e' = Binary64.ofDecimal negative n e

section Layout

variable {ds : List Char} (hds : ∀ c ∈ ds, c.isDigit = true)

include hds

theorem spellsLike_whole (hnil : ds ≠ []) (k : Nat) :
    SpellsLike (ds ++ List.replicate k '0' ++ ['.', '0']) (Nat.ofDigitChars 10 ds 0) k := by
  have hzeros : ∀ c ∈ ds ++ List.replicate k '0', c.isDigit = true := by
    intro c hc
    rcases List.mem_append.mp hc with hc | hc
    · exact hds c hc
    · rw [List.eq_of_mem_replicate hc]
      decide
  have hvalue : Nat.ofDigitChars 10 (ds ++ List.replicate k '0' ++ ['0']) 0 =
      Nat.ofDigitChars 10 ds 0 * 10 ^ (k + 1) := by
    rw [Nat.ofDigitChars_append, Nat.ofDigitChars_append, Nat.ofDigitChars_replicate_zero,
      Nat.ofDigitChars_cons, Nat.ofDigitChars_nil, pow_succ]
    simp
    ring
  refine ⟨_, _,
    Spells.point hzeros (show ∀ c ∈ ['0'], c.isDigit = true by simp) (by simp [hnil]) .none,
    fun negative => ?_⟩
  rw [hvalue, Binary64.ofDecimal_shift]
  congr 1
  simp

theorem spellsLike_point (hnil : ds ≠ []) {p : Nat} (hpos : 0 < p) (hp : p ≤ ds.length) :
    SpellsLike (ds.take p ++ '.' :: ds.drop p) (Nat.ofDigitChars 10 ds 0)
      ((p : Int) - ds.length) := by
  have hspells := Spells.point (fun c hc => hds c (List.mem_of_mem_take hc))
    (fun c (hc : c ∈ ds.drop p) => hds c (List.mem_of_mem_drop hc))
    (show ds.take p ≠ [] by simp [hnil, hpos.ne']) IsExponent.none
  rw [List.append_nil, List.take_append_drop] at hspells
  refine ⟨_, _, hspells, fun negative => ?_⟩
  congr 1
  simp
  omega

theorem spellsLike_small (k : Nat) :
    SpellsLike ('0' :: '.' :: List.replicate k '0' ++ ds) (Nat.ofDigitChars 10 ds 0)
      (-(k : Int) - ds.length) := by
  have hzeros : ∀ c ∈ List.replicate k '0' ++ ds, c.isDigit = true := by
    intro c hc
    rcases List.mem_append.mp hc with hc | hc
    · rw [List.eq_of_mem_replicate hc]
      decide
    · exact hds c hc
  have hvalue : Nat.ofDigitChars 10 (['0'] ++ (List.replicate k '0' ++ ds)) 0 =
      Nat.ofDigitChars 10 ds 0 := by
    rw [Nat.ofDigitChars_append, Nat.ofDigitChars_append, Nat.ofDigitChars_cons,
      Nat.ofDigitChars_nil, Nat.ofDigitChars_replicate_zero]
    simp
  have hspells :=
    Spells.point (show ∀ c ∈ ['0'], c.isDigit = true by simp) hzeros (by simp) IsExponent.none
  rw [List.append_nil, hvalue] at hspells
  refine ⟨_, _, hspells, fun negative => ?_⟩
  congr 1
  simp
  omega

end Layout

/-- The first digit, the other digits behind a point, and an exponent. -/
theorem spellsLike_exponent {d : Char} {ds : List Char} (hds : ∀ c ∈ d :: ds, c.isDigit = true)
    (p : Int) :
    SpellsLike ((if ds = [] then [d] else d :: '.' :: ds) ++ 'e' :: (toString p).toList)
      (Nat.ofDigitChars 10 (d :: ds) 0) (p - ds.length) := by
  have hd : ∀ c ∈ [d], c.isDigit = true := fun c hc => hds c (by simp_all)
  split
  · next hnil =>
    subst hnil
    exact ⟨_, _, Spells.bare hd (by simp) (isExponent_toString p) (by simp),
      fun negative => by simp⟩
  · exact ⟨_, _, Spells.point hd (fun c hc => hds c (List.mem_cons_of_mem d hc)) (by simp)
      (isExponent_toString p), fun negative => rfl⟩

/-- The text of a decimal number spells it, with other digits and another exponent perhaps. -/
theorem spellsLike_render {d : Binary64.Decimal} (hd : 0 < d.digits) :
    SpellsLike d.render.toList d.digits d.exponent := by
  obtain ⟨ds, j, hds, hj, hall, hnil, hvalue⟩ := exists_digits hd
  have hlength := List.length_pos_of_ne_nil hnil
  suffices hlike : SpellsLike d.render.toList (Nat.ofDigitChars 10 ds 0) (d.exponent + j) by
    obtain ⟨n, e, hspells, hread⟩ := hlike
    refine ⟨n, e, hspells, fun negative => ?_⟩
    rw [hread, ← Binary64.ofDecimal_shift, ← hvalue]
  rw [Binary64.Decimal.render]
  simp only [hds, hj]
  generalize d.exponent + j = e at *
  split
  · next h =>
    simp only [Bool.and_eq_true, decide_eq_true_eq] at h
    obtain ⟨k, rfl⟩ := Int.eq_ofNat_of_zero_le h.1
    rw [String.toList_ofList]
    exact spellsLike_whole hall hnil k
  split
  · next h₁ h =>
    simp only [Bool.and_eq_true, decide_eq_true_eq, not_and] at h h₁
    obtain ⟨p, hp⟩ := Int.eq_ofNat_of_zero_le h.1.le
    rw [String.toList_ofList, hp, Int.toNat_natCast]
    have he : e = p - ds.length := by omega
    rw [he]
    exact spellsLike_point hall hnil (by omega) (by omega)
  split
  · next h =>
    simp only [Bool.and_eq_true, decide_eq_true_eq] at h
    obtain ⟨k, hk⟩ := Int.eq_ofNat_of_zero_le (show 0 ≤ -(ds.length + e) by omega)
    rw [String.toList_ofList, hk, Int.toNat_natCast]
    have he : e = -(k : Int) - ds.length := by omega
    rw [he]
    exact spellsLike_small hall k
  · obtain ⟨d, ds, rfl⟩ := List.exists_cons_of_ne_nil hnil
    have he : e = ((d :: ds).length + e - 1) - ds.length := by
      rw [List.length_cons]
      push_cast
      ring
    have hlike := spellsLike_exponent hall ((d :: ds).length + e - 1)
    rw [← he] at hlike
    cases ds <;> simpa using hlike

end PartDepot.Yaml
