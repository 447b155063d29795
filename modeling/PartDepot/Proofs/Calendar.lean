import Mathlib.Tactic.IntervalCases
import PartDepot.Time.Timestamp

/-!
# Days and dates

A day number has one date, and the date has that day number.  Both directions count in years that
start in March, with the leap day at their end: four centuries have 146097 days, a century 36524 and
four years 1461, each without the leap day that would follow.
-/

namespace PartDepot.Date

/-- A day of an era of four centuries: its century, the four years in it, the year in those,
and the day of the year. The last year of four has a leap day, unless it ends a century that
does not end the era. -/
structure InEra (century four one day : Int) : Prop where
  century_nonneg : 0 ≤ century
  century_le : century ≤ 3
  four_nonneg : 0 ≤ four
  four_le : four ≤ 24
  one_nonneg : 0 ≤ one
  one_le : one ≤ 3
  day_nonneg : 0 ≤ day
  day_le : day ≤ 364 ∨ day = 365 ∧ one = 3 ∧ (four < 24 ∨ century = 3)

/-- The number of a day in its era. -/
def dayOfEra (century four one day : Int) : Int := 36524 * century + 1461 * four + 365 * one + day

theorem exists_inEra {n : Int} (hn : 0 ≤ n) (hn' : n < 146097) :
    ∃ century four one day, InEra century four one day ∧ n = dayOfEra century four one day := by
  obtain ⟨c, hc⟩ : ∃ c, c = min (n / 36524) 3 := ⟨_, rfl⟩
  obtain ⟨f, hf⟩ : ∃ f, f = (n - 36524 * c) / 1461 := ⟨_, rfl⟩
  obtain ⟨o, ho⟩ : ∃ o, o = min ((n - 36524 * c - 1461 * f) / 365) 3 := ⟨_, rfl⟩
  refine ⟨c, f, o, n - 36524 * c - 1461 * f - 365 * o, ⟨?_, ?_, ?_, ?_, ?_, ?_, ?_, ?_⟩, ?_⟩
  · omega
  · omega
  · omega
  · omega
  · omega
  · omega
  · omega
  · omega
  · simp only [dayOfEra]
    omega

namespace InEra

variable {century four one day : Int} (h : InEra century four one day)

include h

/-- The year of a day in its era: without leap days every year would have 365 days. -/
theorem year_eq {n : Int} (hn : n = dayOfEra century four one day) :
    (n - n / 1460 + n / 36524 - n / 146096) / 365 = 100 * century + 4 * four + one := by
  obtain ⟨hc, hc', hf, hf', ho, ho', hd, hd'⟩ := h
  rw [dayOfEra] at hn
  have hcentury : n / 36524 - n / 146096 = century := by
    have hrest : 1461 * four + 365 * one + day ≤ 36523 ∨
        century = 3 ∧ 1461 * four + 365 * one + day = 36524 := by omega
    rcases hrest with hrest | ⟨rfl, hrest⟩
    · have hlow : n / 36524 = century := by omega
      have hlast : n / 146096 = 0 := by omega
      omega
    · have hlast : n = 146096 := by omega
      subst hlast
      decide
  -- Whether the leap day of the last four years is passed already.
  obtain ⟨passed, hpassed⟩ : ∃ p, p = (24 * century + four + 365 * one + day) / 1460 := ⟨_, rfl⟩
  have hfours : n / 1460 = 25 * century + four + passed := by omega
  have hday : 0 ≤ day - passed ∧ day - passed ≤ 364 := by omega
  have hsum : n - n / 1460 + n / 36524 - n / 146096 =
      365 * (100 * century + 4 * four + one) + (day - passed) := by omega
  rw [hsum]
  omega

theorem year_bounds :
    0 ≤ 100 * century + 4 * four + one ∧ 100 * century + 4 * four + one ≤ 399 := by
  obtain ⟨hc, hc', hf, hf', ho, ho', -, -⟩ := h
  omega

theorem leapDays : (100 * century + 4 * four + one) / 4 = 25 * century + four ∧
    (100 * century + 4 * four + one) / 100 = century := by
  obtain ⟨hc, hc', hf, hf', ho, ho', -, -⟩ := h
  omega

/-- The leap day ends a year before a leap year. -/
theorem isLeapYear_of_day (hday : day = 365) (era : Int) :
    isLeapYear (100 * century + 4 * four + one + era * 400 + 1) = true := by
  obtain ⟨hc, hc', hf, hf', ho, ho', hd, hd'⟩ := h
  obtain ⟨-, rfl, hfour⟩ := hd'.resolve_left (by omega)
  simp only [isLeapYear, Bool.and_eq_true, Bool.or_eq_true, beq_iff_eq, bne_iff_ne]
  omega

end InEra

/-- The date of a day of a year that starts in March. -/
def ofDayOfYear (year day : Int) : Date :=
  let m := (5 * day + 2) / 153
  let month := (if m < 10 then m + 3 else m - 9).toNat
  ⟨if month ≤ 2 then year + 1 else year, month, (day - (153 * m + 2) / 5 + 1).toNat⟩

theorem exists_ofDays (n : Int) : ∃ era century four one day, InEra century four one day ∧
    n + 719468 = 146097 * era + dayOfEra century four one day ∧
    ofDays n = ofDayOfYear (100 * century + 4 * four + one + era * 400) day := by
  obtain ⟨era, hera⟩ : ∃ era, era = Int.fdiv (n + 719468) 146097 := ⟨_, rfl⟩
  have hdiv : era = (n + 719468) / 146097 := by rw [hera, Int.fdiv_eq_ediv_of_nonneg _ (by decide)]
  obtain ⟨century, four, one, day, h, hday⟩ := exists_inEra (n := n + 719468 - era * 146097)
    (by omega) (by omega)
  have hyear := h.year_eq hday
  obtain ⟨hleap, hleap'⟩ := h.leapDays
  have hdayOfYear : n + 719468 - era * 146097 - (365 * (100 * century + 4 * four + one) +
      (100 * century + 4 * four + one) / 4 - (100 * century + 4 * four + one) / 100) = day := by
    rw [hleap, hleap', hday, dayOfEra]
    omega
  refine ⟨era, century, four, one, day, h, by omega, ?_⟩
  simp only [ofDays, ← hera, hyear, hdayOfYear]
  rfl

section DayOfYear

variable {day : Int} (hday : 0 ≤ day) (hday' : day ≤ 365)

include hday hday'

/-- The month of a day, counted from March on, and the months of the calendar. -/
theorem exists_month (year : Int) : ∃ m : Int, 0 ≤ m ∧ m ≤ 11 ∧ m = (5 * day + 2) / 153 ∧
    (m < 10 ∧ ofDayOfYear year day = ⟨year, (m + 3).toNat, (day - (153 * m + 2) / 5 + 1).toNat⟩ ∨
      10 ≤ m ∧
        ofDayOfYear year day = ⟨year + 1, (m - 9).toNat, (day - (153 * m + 2) / 5 + 1).toNat⟩) := by
  obtain ⟨m, hm⟩ : ∃ m, m = (5 * day + 2) / 153 := ⟨_, rfl⟩
  refine ⟨m, by omega, by omega, hm, ?_⟩
  simp only [ofDayOfYear, ← hm]
  by_cases h : m < 10
  · refine .inl ⟨h, ?_⟩
    rw [if_pos h, if_neg (by omega)]
  · refine .inr ⟨Int.not_lt.mp h, ?_⟩
    rw [if_neg h, if_pos (by omega)]

theorem toDays_ofDayOfYear {year era ofEra : Int} (hyear : year = ofEra + era * 400)
    (hera : 0 ≤ ofEra) (hera' : ofEra ≤ 399) : toDays (ofDayOfYear year day) =
      era * 146097 + (ofEra * 365 + ofEra / 4 - ofEra / 100 + day) - 719468 := by
  have hdiv : Int.fdiv year 400 = era := by
    rw [Int.fdiv_eq_ediv_of_nonneg _ (by decide)]
    omega
  have hrest : year - era * 400 = ofEra := by omega
  obtain ⟨m, hm₀, hm₁, hm, hdate⟩ := exists_month hday hday' year
  have hstart : (153 * m + 2) / 5 + ((day - (153 * m + 2) / 5 + 1).toNat : Int) - 1 = day := by
    omega
  obtain ⟨h, hdate⟩ | ⟨h, hdate⟩ := hdate
  · have hmonth : ((m + 3).toNat : Int) - 3 = m := by omega
    have hlate : ¬ (m + 3).toNat ≤ 2 := by omega
    rw [hdate]
    simp only [toDays, if_neg hlate, hmonth, hstart, hdiv, hrest]
  · have hmonth : ((m - 9).toNat : Int) + 9 = m := by omega
    have hearly : (m - 9).toNat ≤ 2 := by omega
    rw [hdate]
    simp only [toDays, if_pos hearly, hmonth, hstart, Int.add_sub_cancel, hdiv, hrest]

theorem isValid_ofDayOfYear {year : Int} (hleap : day = 365 → isLeapYear (year + 1) = true) :
    (ofDayOfYear year day).isValid = true := by
  obtain ⟨m, hm₀, hm₁, hm, hdate⟩ := exists_month hday hday' year
  obtain ⟨h, hdate⟩ | ⟨h, hdate⟩ := hdate
  · rw [hdate]
    have hlen : (day - (153 * m + 2) / 5 + 1).toNat ≤ daysInMonth year (m + 3).toNat := by
      interval_cases m <;> simp [daysInMonth] <;> omega
    simp only [isValid, Bool.and_eq_true, decide_eq_true_eq]
    omega
  · rw [hdate]
    have hlen : (day - (153 * m + 2) / 5 + 1).toNat ≤ daysInMonth (year + 1) (m - 9).toNat := by
      obtain rfl | rfl : m = 10 ∨ m = 11 := by omega
      · simp [daysInMonth]
        omega
      · by_cases hlast : day = 365
        · simp [daysInMonth, hleap hlast]
          omega
        · have hfeb : 28 ≤ daysInMonth (year + 1) 2 := by
            simp only [daysInMonth]
            grind
          refine Nat.le_trans ?_ hfeb
          omega
    simp only [isValid, Bool.and_eq_true, decide_eq_true_eq]
    omega

end DayOfYear

/-- The date of a day has the number of the day. -/
theorem toDays_ofDays (n : Int) : toDays (ofDays n) = n := by
  obtain ⟨era, century, four, one, day, h, hn, hdate⟩ := exists_ofDays n
  obtain ⟨hyear, hyear'⟩ := h.year_bounds
  obtain ⟨hleap, hleap'⟩ := h.leapDays
  rw [hdate, toDays_ofDayOfYear h.day_nonneg (by have := h.day_le; omega) rfl hyear hyear',
    hleap, hleap']
  rw [dayOfEra] at hn
  omega

theorem isValid_ofDays (n : Int) : (ofDays n).isValid = true := by
  obtain ⟨era, century, four, one, day, h, -, hdate⟩ := exists_ofDays n
  rw [hdate]
  exact isValid_ofDayOfYear h.day_nonneg (by have := h.day_le; omega) fun hday =>
    h.isLeapYear_of_day hday era

end PartDepot.Date
