import PartDepot.Proofs.Calendar
import PartDepot.Proofs.Spelling
import PartDepot.Time.Text

/-!
# Times read back

The text of a time is read as that time.  Each part is written with a width of its own and read up
to the sign behind it, and the fraction has as many digits as are needed.  A leap second is
written as the second `60` of its minute.
-/

namespace PartDepot.Timestamp

/-! ## Parts of a time -/

theorem isBlank_of_isDigit {c : Char} (hc : c.isDigit = true) : Text.isBlank c = false := by
  have hrange : 48 ≤ c.toNat ∧ c.toNat ≤ 57 := by
    have h : 48 ≤ c.val ∧ c.val ≤ 57 := by simpa [Char.isDigit] using hc
    exact ⟨UInt32.le_iff_toNat_le.mp h.1, UInt32.le_iff_toNat_le.mp h.2⟩
  simp only [Text.isBlank, Bool.or_eq_false_iff, Bool.and_eq_false_iff, decide_eq_false_iff_not,
    beq_eq_false_iff_ne]
  omega

theorem skipBlanks_of_head {s : List Char} (hs : ∀ c ∈ s.head?, Text.isBlank c = false) :
    skipBlanks s = s := by
  cases s with
  | nil => rfl
  | cons c s => simp [skipBlanks, hs c rfl]

theorem readSign_cons {c : Char} (hc : Text.isBlank c = false) (s : List Char) :
    readSign c (c :: s) = some s := by
  rw [readSign, skipBlanks_of_head (by rintro d ⟨⟩; exact hc)]
  simp

section Digits

variable {ds rest : List Char} {limit : Nat}

theorem ofDigitChars_eq_foldl (ds : List Char) :
    Nat.ofDigitChars 10 ds 0 = ds.foldl (fun n d => n * 10 + (d.toNat - '0'.toNat)) 0 := by
  simp only [Nat.ofDigitChars, Nat.mul_comm]

theorem readDigits_append (hds : ∀ c ∈ ds, c.isDigit = true) (hnil : ds ≠ [])
    (hlimit : ds.length ≤ limit) (hrest : ds.length = limit ∨ ∀ c ∈ rest.head?, c.isDigit = false) :
    readDigits limit (ds ++ rest) = some (Nat.ofDigitChars 10 ds 0, rest) := by
  have hhead : ∀ c ∈ (rest.take (limit - ds.length)).head?, c.isDigit = false := by
    intro c hc
    obtain hend | hrest := hrest
    · rw [hend, Nat.sub_self] at hc
      cases hc
    · cases rest with
      | nil => simp at hc
      | cons d rest =>
          cases hleft : limit - ds.length with
          | zero => simp [hleft] at hc
          | succ left =>
              rw [hleft] at hc
              exact hrest c hc
  have htake : ((ds ++ rest).take limit).takeWhile Char.isDigit = ds := by
    rw [List.take_append, List.take_of_length_le hlimit]
    exact (Yaml.takeWhile_isDigit hds hhead).1
  rw [readDigits]
  simp only [htake, List.isEmpty_iff, if_neg hnil, ← ofDigitChars_eq_foldl, List.drop_left]

end Digits

section Padded

variable {width n : Nat}

theorem toList_padded (width n : Nat) : (padded width n).toList =
    List.replicate (width - (Nat.toDigits 10 n).length) '0' ++ Nat.toDigits 10 n := by
  simp [padded]

theorem isDigit_of_mem_padded {c : Char} (hc : c ∈ (padded width n).toList) : c.isDigit = true := by
  rw [toList_padded] at hc
  rcases List.mem_append.mp hc with hc | hc
  · rw [List.eq_of_mem_replicate hc]
    decide
  · exact Yaml.isDigit_of_mem_toDigits hc

theorem padded_ne_nil (width n : Nat) : (padded width n).toList ≠ [] := by
  rw [toList_padded]
  exact List.append_ne_nil_of_right_ne_nil _ Nat.toDigits_ne_nil

theorem ofDigitChars_padded : Nat.ofDigitChars 10 (padded width n).toList 0 = n := by
  rw [toList_padded, Nat.ofDigitChars_append, Nat.ofDigitChars_replicate_zero, Nat.mul_zero,
    Nat.ofDigitChars_ten_toDigits]

theorem length_padded (hwidth : 0 < width) (hn : n < 10 ^ width) :
    (padded width n).toList.length = width := by
  have hle := Binary64.length_toDigits_le hwidth hn
  rw [toList_padded, List.length_append, List.length_replicate]
  omega

theorem head_padded (width n : Nat) (rest : List Char) :
    ∃ c cs, (padded width n).toList ++ rest = c :: cs ∧ c.isDigit = true := by
  obtain ⟨c, cs, hchars⟩ := List.exists_cons_of_ne_nil (padded_ne_nil width n)
  have hc : c.isDigit = true :=
    isDigit_of_mem_padded (show c ∈ (padded width n).toList by simp [hchars])
  exact ⟨c, cs ++ rest, by simp [hchars], hc⟩

theorem readDigits_padded (hwidth : 0 < width) (hn : n < 10 ^ width) {limit : Nat}
    (hlimit : width ≤ limit) {rest : List Char}
    (hrest : width = limit ∨ ∀ c ∈ rest.head?, c.isDigit = false) :
    readDigits limit ((padded width n).toList ++ rest) = some (n, rest) := by
  have hlength := length_padded hwidth hn
  rw [readDigits_append (fun c => isDigit_of_mem_padded) (padded_ne_nil width n)
    (hlength.trans_le hlimit) (hrest.imp_left hlength.trans), ofDigitChars_padded]

theorem skipBlanks_padded (width n : Nat) (rest : List Char) :
    skipBlanks ((padded width n).toList ++ rest) = (padded width n).toList ++ rest := by
  apply skipBlanks_of_head
  intro c hc
  obtain ⟨d, ds, hchars, hd⟩ := head_padded width n rest
  rw [hchars] at hc
  obtain rfl : d = c := by simpa using hc
  exact isBlank_of_isDigit hd

theorem readPart_padded (hn : n < 100) (rest : List Char) :
    readPart ((padded 2 n).toList ++ rest) = some (n, rest) := by
  rw [readPart, skipBlanks_padded, readDigits_padded (by decide) hn (Nat.le_refl 2) (.inl rfl)]

end Padded

/-! ## Years and fractions -/

theorem readYear_yearText (year : Int) {rest : List Char}
    (hrest : ∀ c ∈ rest.head?, c.isDigit = false) :
    readYear ((yearText year).toList ++ rest) = some (year, rest) := by
  by_cases hplain : 0 ≤ year ∧ year ≤ 9999
  · obtain ⟨n, rfl⟩ := Int.eq_ofNat_of_zero_le hplain.1
    have hread : readDigits 4 ((padded 4 n).toList ++ rest) = some (n, rest) :=
      readDigits_padded (by decide) (by omega) (Nat.le_refl 4) (.inl rfl)
    have hskip := skipBlanks_padded 4 n rest
    obtain ⟨c, cs, hchars, hc⟩ := head_padded 4 n rest
    have hminus : c ≠ '-' := by
      rintro rfl
      exact absurd hc (by decide)
    have hplus : c ≠ '+' := by
      rintro rfl
      exact absurd hc (by decide)
    rw [hchars] at hread hskip
    have htext : (yearText n).toList ++ rest = c :: cs := by
      rw [← hchars, yearText, if_pos (by simpa using hplain), Int.toNat_natCast]
    rw [htext]
    simp [readYear, hskip, hminus, hplus, hread]
  · have hdigits (c : Char) (hc : c ∈ (padded 4 year.natAbs).toList) : c.isDigit = true :=
      isDigit_of_mem_padded hc
    have hread := readDigits_append hdigits (padded_ne_nil 4 year.natAbs)
      (Nat.le_add_right _ rest.length) (.inr hrest)
    rw [ofDigitChars_padded] at hread
    have htext : yearText year = (if year < 0 then "-" else "+") ++ padded 4 year.natAbs := by
      rw [yearText, if_neg (by simpa using hplain)]
    have hminus : skipBlanks ('-' :: ((padded 4 year.natAbs).toList ++ rest)) = _ :=
      skipBlanks_of_head (by rintro c ⟨⟩; decide)
    have hplus : skipBlanks ('+' :: ((padded 4 year.natAbs).toList ++ rest)) = _ :=
      skipBlanks_of_head (by rintro c ⟨⟩; decide)
    rw [htext, String.toList_append]
    by_cases hnegative : year < 0
    · have hvalue : -(year.natAbs : Int) = year := by omega
      simpa [readYear, hnegative, hminus, hread] using hvalue
    · have hvalue : (year.natAbs : Int) = year := by omega
      simpa [readYear, hnegative, hplus, hread] using hvalue

theorem readFraction_fractionText (t : Timestamp) {rest : List Char}
    (hrest : ∀ c ∈ rest.head?, c.isDigit = false ∧ c ≠ '.') :
    readFraction ((fractionText t).toList ++ rest) = some (t.nanos % 1_000_000_000, rest) := by
  have hdigits {width n : Nat} (hwidth : 0 < width) (hn : n < 10 ^ width) (hnine : width ≤ 9) :
      readFraction ('.' :: ((padded width n).toList ++ rest)) =
        some (n * 10 ^ (9 - width), rest) := by
    have hread := readDigits_padded hwidth hn hnine (.inr fun c hc => (hrest c hc).1)
    have hlength := length_padded hwidth hn
    have hdrop : rest.dropWhile Char.isDigit = rest := by
      cases rest with
      | nil => rfl
      | cons c rest => simp [(hrest c rfl).1]
    simp [readFraction, hread, hlength, hdrop]
  have hpoint (s : String) : ("." ++ s).toList ++ rest = '.' :: (s.toList ++ rest) := by simp
  have hlt : t.nanos % 1_000_000_000 < 1_000_000_000 := Nat.mod_lt _ (by decide)
  rw [fractionText]
  generalize t.nanos % 1_000_000_000 = n at *
  split
  · next hzero =>
    cases rest with
    | nil => simp [readFraction, hzero]
    | cons c rest => simp [readFraction, hzero, (hrest c rfl).2]
  split
  · next hthree =>
    have hvalue : n / 1_000_000 * 10 ^ (9 - 3) = n := by omega
    rw [hpoint, hdigits (by decide) (by omega) (by decide), hvalue]
  split
  · next hsix =>
    have hvalue : n / 1_000 * 10 ^ (9 - 6) = n := by omega
    rw [hpoint, hdigits (by decide) (by omega) (by decide), hvalue]
  · rw [hpoint, hdigits (by decide) hlt (by decide), Nat.sub_self, pow_zero, Nat.mul_one]

/-! ## Times -/

/-- A time of a calendar with years of six digits, where only the last second of a minute
may run on. -/
structure Valid (t : Timestamp) : Prop where
  year : yearInRange (Date.ofDays (Int.fdiv t.seconds 86400)).year = true
  nanos_lt : t.nanos < 2_000_000_000
  leap : 1_000_000_000 ≤ t.nanos → t.seconds % 60 = 59

instance (t : Timestamp) : Decidable t.Valid :=
  decidable_of_iff (yearInRange (Date.ofDays (Int.fdiv t.seconds 86400)).year = true ∧
      t.nanos < 2_000_000_000 ∧ (1_000_000_000 ≤ t.nanos → t.seconds % 60 = 59))
    ⟨fun h => ⟨h.1, h.2.1, h.2.2⟩, fun h => ⟨h.year, h.nanos_lt, h.leap⟩⟩

theorem bounds_of_isValid {d : Date} (hd : d.isValid = true) : d.month < 100 ∧ d.day < 100 := by
  have hlen : Date.daysInMonth d.year d.month ≤ 31 := by
    unfold Date.daysInMonth
    repeat' split
    all_goals decide
  simp only [Date.isValid, Bool.and_eq_true, decide_eq_true_eq] at hd
  omega

/-- The clock of a time: the time of day, where the last second of a minute may run on. -/
theorem exists_clock {t : Timestamp} (ht : t.Valid) : ∃ d h m s, t.clockParts = (d, h, m, s) ∧
    d.isValid = true ∧ yearInRange d.year = true ∧ h < 24 ∧ m < 60 ∧
    (s < 60 ∧ t.nanos % 1_000_000_000 = t.nanos ∧
        t.seconds = d.toDays * 86400 + (h * 3600 + m * 60 + s : Nat) ∨
      s = 60 ∧ t.nanos % 1_000_000_000 + 1_000_000_000 = t.nanos ∧
        t.seconds = d.toDays * 86400 + (h * 3600 + m * 60 + 59 : Nat)) := by
  obtain ⟨hyear, hnanos, hleap⟩ := ht
  obtain ⟨days, hdays⟩ : ∃ days, days = Int.fdiv t.seconds 86400 := ⟨_, rfl⟩
  have hdiv : days = t.seconds / 86400 := by rw [hdays, Int.fdiv_eq_ediv_of_nonneg _ (by decide)]
  obtain ⟨rest, hrest⟩ : ∃ rest, rest = (t.seconds - days * 86400).toNat := ⟨_, rfl⟩
  have hlt : rest < 86400 := by omega
  refine ⟨Date.ofDays days, rest / 3600, rest / 60 % 60, rest % 60 + t.nanos / 1_000_000_000,
    by rw [clockParts, ← hdays, ← hrest], Date.isValid_ofDays days, hdays ▸ hyear, by omega,
    by omega, ?_⟩
  rw [Date.toDays_ofDays]
  by_cases hlate : t.nanos < 1_000_000_000
  · rw [Nat.div_eq_of_lt hlate, Nat.mod_eq_of_lt hlate]
    exact .inl ⟨by omega, rfl, by omega⟩
  · have hsecond := hleap (Nat.le_of_not_lt hlate)
    exact .inr ⟨by omega, by omega, by omega⟩

/-- A text that is put together from a date, a time of day and a fraction. -/
theorem parse_parts {text : String} {d : Date} {h m s n : Nat} {fraction : List Char}
    (htext : text.toList = (yearText d.year).toList ++ '-' :: ((padded 2 d.month).toList ++ '-' ::
      ((padded 2 d.day).toList ++ 'T' ::
        ((padded 2 h).toList ++ ':' :: ((padded 2 m).toList ++ ':' ::
        ((padded 2 s).toList ++ (fraction ++ ['Z'])))))))
    (hfraction : readFraction (fraction ++ ['Z']) = some (n, ['Z'])) (hd : d.isValid = true)
    (hyear : yearInRange d.year = true) (hh : h < 24) (hm : m < 60) (hs : s ≤ 60) :
    parse text =
      let (second, nanos) := if s = 60 then (59, n + 1_000_000_000) else (s, n)
      let seconds := d.toDays * 86400 + (h * 3600 + m * 60 + second : Nat)
      if yearInRange (Date.ofDays (Int.fdiv seconds 86400)).year then some ⟨seconds, nanos⟩
      else none := by
  have hreadYear (rest : List Char) :
      readYear ((yearText d.year).toList ++ '-' :: rest) = some (d.year, '-' :: rest) :=
    readYear_yearText d.year (by rintro c ⟨⟩; decide)
  have hdash := readSign_cons (show Text.isBlank '-' = false by decide)
  have hcolon := readSign_cons (show Text.isBlank ':' = false by decide)
  obtain ⟨hmonth, hday⟩ := bounds_of_isValid hd
  have hzulu : readOffset (skipBlanks ['Z']) = some (0, []) := rfl
  rw [parse, htext, hreadYear, Option.bind_eq_bind, Option.bind_some]
  dsimp only
  rw [hdash, Option.bind_eq_bind, Option.bind_some, readPart_padded hmonth, Option.bind_eq_bind,
    Option.bind_some]
  dsimp only
  rw [hdash, Option.bind_some, readPart_padded hday, Option.bind_some]
  simp only [Option.bind_some]
  rw [readPart_padded (show h < 100 by omega), Option.bind_some]
  dsimp only
  rw [hcolon, Option.bind_some, readPart_padded (show m < 100 by omega), Option.bind_some]
  dsimp only
  rw [hcolon, Option.bind_some, readPart_padded (show s < 100 by omega), Option.bind_some]
  dsimp only
  rw [hfraction, Option.bind_some]
  dsimp only
  rw [hzulu, Option.bind_some]
  have hvalid : (!(skipBlanks []).isEmpty || !(⟨d.year, d.month, d.day⟩ : Date).isValid ||
      !yearInRange d.year) = false := by
    rw [hd, hyear]
    rfl
  have hsize : (decide (23 < h) || decide (59 < m) || decide (60 < s) ||
      decide (86400 ≤ (0 : Int).natAbs)) = false := by
    simp
    omega
  simp only [hvalid, hsize, Bool.false_eq_true, if_false, Int.sub_zero]

/-- The text of a time is read as the time. -/
theorem parse_zulu {t : Timestamp} (ht : t.Valid) : parse t.zulu = some t := by
  obtain ⟨d, h, m, s, hparts, hd, hyear, hh, hm, hclock⟩ := exists_clock ht
  have hfraction : readFraction ((fractionText t).toList ++ ['Z']) =
      some (t.nanos % 1_000_000_000, ['Z']) := readFraction_fractionText t (by rintro c ⟨⟩; decide)
  have htext : t.zulu.toList =
      (yearText d.year).toList ++ '-' :: ((padded 2 d.month).toList ++ '-' ::
      ((padded 2 d.day).toList ++ 'T' ::
        ((padded 2 h).toList ++ ':' :: ((padded 2 m).toList ++ ':' ::
        ((padded 2 s).toList ++ ((fractionText t).toList ++ ['Z'])))))) := by
    simp [zulu, dateAndTime, hparts]
  have hrange := ht.year
  obtain ⟨hs, hnanos, hseconds⟩ | ⟨rfl, hnanos, hseconds⟩ := hclock
  · rw [parse_parts htext hfraction hd hyear hh hm hs.le, if_neg hs.ne]
    simp only [← hseconds, hnanos, if_pos hrange]
  · rw [parse_parts htext hfraction hd hyear hh hm le_rfl, if_pos rfl]
    simp only [← hseconds, hnanos, if_pos hrange]

/-! ## Times that are read -/

theorem readDigits_lt {limit n : Nat} {s rest : List Char}
    (h : readDigits limit s = some (n, rest)) :
    ∃ k ≤ limit, s.length - rest.length = k ∧ n < 10 ^ k := by
  rw [readDigits] at h
  obtain ⟨ds, hds⟩ : ∃ ds, ds = (s.take limit).takeWhile Char.isDigit := ⟨_, rfl⟩
  have hprefix : ds <+: s := hds ▸ (List.takeWhile_prefix _).trans (List.take_prefix limit s)
  have hlimit : ds.length ≤ limit := by
    rw [hds]
    exact ((List.takeWhile_prefix _).length_le).trans (List.length_take_le limit s)
  have hall : ∀ c ∈ ds, c.isDigit = true := by
    intro c hc
    rw [hds] at hc
    exact List.mem_takeWhile_imp hc
  rw [← hds] at h
  split at h
  · cases h
  · cases h
    refine ⟨ds.length, hlimit, ?_, ?_⟩
    · have hle := hprefix.length_le
      rw [List.length_drop]
      omega
    · rw [← ofDigitChars_eq_foldl]
      exact Yaml.ofDigitChars_lt hall

theorem readFraction_lt {s rest : List Char} {n : Nat} (h : readFraction s = some (n, rest)) :
    n < 1_000_000_000 := by
  unfold readFraction at h
  split at h
  · next digits =>
    obtain ⟨⟨m, after⟩, hread, h⟩ := Option.bind_eq_some_iff.mp h
    cases h
    obtain ⟨k, hk, hcount, hm⟩ := readDigits_lt hread
    rw [hcount, Nat.pow_eq]
    calc m * 10 ^ (9 - k) < 10 ^ k * 10 ^ (9 - k) := Nat.mul_lt_mul_of_pos_right hm (by positivity)
      _ = 10 ^ 9 := by rw [← pow_add, Nat.add_sub_cancel' hk]
  · cases h
    decide

theorem readOffset_dvd {s rest : List Char} {offset : Int}
    (h : readOffset s = some (offset, rest)) :
    (60 : Int) ∣ offset := by
  unfold readOffset at h
  extract_lets two digits at h
  have hdigits {s rest : List Char} {n : Int} (h : digits s = some (n, rest)) : (60 : Int) ∣ n := by
    obtain ⟨⟨hours, s⟩, -, h⟩ := Option.bind_eq_some_iff.mp h
    obtain ⟨⟨minutes, s⟩, -, h⟩ := Option.bind_eq_some_iff.mp h
    dsimp only at h
    split at h
    · cases h
      omega
    · cases h
  split at h
  · cases h
    exact dvd_zero _
  · cases h
    exact dvd_zero _
  · exact hdigits h
  · obtain ⟨⟨n, after⟩, hread, h⟩ := Option.map_eq_some_iff.mp h
    cases h
    exact (hdigits hread).neg_right
  · obtain ⟨⟨n, after⟩, hread, h⟩ := Option.map_eq_some_iff.mp h
    cases h
    exact (hdigits hread).neg_right
  · split at h
    · cases h
      exact dvd_zero _
    · cases h
  · cases h

/-- Every time that is read is valid, so that its own text is read as that time again. -/
theorem valid_of_parse {text : String} {t : Timestamp} (h : parse text = some t) : t.Valid := by
  unfold parse at h
  obtain ⟨⟨year, s⟩, -, h⟩ := Option.bind_eq_some_iff.mp h
  obtain ⟨s, -, h⟩ := Option.bind_eq_some_iff.mp h
  obtain ⟨⟨month, s⟩, -, h⟩ := Option.bind_eq_some_iff.mp h
  obtain ⟨s, -, h⟩ := Option.bind_eq_some_iff.mp h
  obtain ⟨⟨day, s⟩, -, h⟩ := Option.bind_eq_some_iff.mp h
  dsimp -zeta only at h
  extract_lets date readTime at h
  obtain ⟨s, h⟩ : ∃ s, readTime s = some t := by
    split at h
    · exact ⟨_, h⟩
    · exact ⟨_, h⟩
    · exact ⟨_, h⟩
    · cases h
  obtain ⟨⟨hour, s⟩, -, h⟩ := Option.bind_eq_some_iff.mp h
  obtain ⟨s, -, h⟩ := Option.bind_eq_some_iff.mp h
  obtain ⟨⟨minute, s⟩, -, h⟩ := Option.bind_eq_some_iff.mp h
  obtain ⟨s, -, h⟩ := Option.bind_eq_some_iff.mp h
  obtain ⟨⟨second, s⟩, -, h⟩ := Option.bind_eq_some_iff.mp h
  obtain ⟨⟨nanos, s⟩, hnanos, h⟩ := Option.bind_eq_some_iff.mp h
  obtain ⟨⟨offset, s⟩, hoffset, h⟩ := Option.bind_eq_some_iff.mp h
  dsimp only at h
  have hlt := readFraction_lt hnanos
  obtain ⟨minutes, rfl⟩ := readOffset_dvd hoffset
  split at h
  · cases h
  split at h
  · cases h
  next hclock =>
  simp only [Bool.or_eq_true, decide_eq_true_eq, not_or] at hclock
  by_cases hleap : second = 60
  · simp only [if_pos hleap] at h
    split at h
    · next hyear =>
      cases h
      exact ⟨hyear, by dsimp only; omega, fun _ => by dsimp only; omega⟩
    · cases h
  · simp only [if_neg hleap] at h
    split at h
    · next hyear =>
      cases h
      exact ⟨hyear, by dsimp only; omega, fun hlate => by dsimp only at hlate; omega⟩
    · cases h

end PartDepot.Timestamp
