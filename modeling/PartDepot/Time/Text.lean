import PartDepot.Time.Timestamp
import PartDepot.Text.Blank

/-!
# Times as text

Reading accepts the RFC 3339 form loosely: blanks around and between the parts, parts without
leading zeros, a sign before the year, any offset.  Writing gives universal time with the shortest
of no, three, six or nine fraction digits that is exact.
-/

namespace PartDepot.Timestamp

/-! ## Reading -/

def skipBlanks (s : List Char) : List Char := s.dropWhile Text.isBlank

def readDigits (limit : Nat) (s : List Char) : Option (Nat × List Char) :=
  let ds := (s.take limit).takeWhile Char.isDigit
  if ds.isEmpty then none
  else some (ds.foldl (fun n d => n * 10 + (d.toNat - '0'.toNat)) 0, s.drop ds.length)

def readPart (s : List Char) : Option (Nat × List Char) := readDigits 2 (skipBlanks s)

def readSign (c : Char) (s : List Char) : Option (List Char) :=
  match skipBlanks s with
  | d :: rest => if d = c then some rest else none
  | [] => none

/-- A year: four digits, or any number of them behind a sign. -/
def readYear (s : List Char) : Option (Int × List Char) :=
  match skipBlanks s with
  | '-' :: rest => (readDigits rest.length rest).map fun (n, rest) => (-n, rest)
  | '+' :: rest => (readDigits rest.length rest).map fun (n, rest) => (n, rest)
  | rest => (readDigits 4 rest).map fun (n, rest) => (n, rest)

/-- A fraction of a second in nanoseconds; digits after the ninth are dropped. -/
def readFraction (s : List Char) : Option (Nat × List Char) :=
  match s with
  | '.' :: rest => do
    let (n, after) ← readDigits 9 rest
    let count := rest.length - after.length
    some (n * Nat.pow 10 (9 - count), after.dropWhile Char.isDigit)
  | _ => some (0, s)

def readOffset (s : List Char) : Option (Int × List Char) :=
  let digits (s : List Char) : Option (Int × List Char) := do
    let two (s : List Char) : Option (Nat × List Char) :=
      match s with
      | a :: b :: rest =>
        if a.isDigit && b.isDigit then
          some ((a.toNat - '0'.toNat) * 10 + (b.toNat - '0'.toNat), rest)
        else none
      | _ => none
    let (hours, s) ← two s
    let (minutes, s) ← two (s.dropWhile fun c => c == ':' || Text.isBlank c)
    if minutes < 60 then some (hours * 3600 + minutes * 60, s) else none
  match s with
  | 'Z' :: rest | 'z' :: rest => some (0, rest)
  | '+' :: rest => digits rest
  | '-' :: rest | '−' :: rest => (digits rest).map fun (n, rest) => (-n, rest)
  | a :: b :: c :: rest =>
    if [a, b, c].map Char.toUpper == ['U', 'T', 'C'] then some (0, rest) else none
  | _ => none

def parse (text : String) : Option Timestamp := do
  let (year, s) ← readYear text.toList
  let (month, s) ← readPart (← readSign '-' s)
  let (day, s) ← readPart (← readSign '-' s)
  let s ← match s with
    | 'T' :: rest | 't' :: rest | ' ' :: rest => some rest
    | _ => none
  let (hour, s) ← readPart s
  let (minute, s) ← readPart (← readSign ':' s)
  let (second, s) ← readPart (← readSign ':' s)
  let (nanos, s) ← readFraction s
  let (offset, s) ← readOffset (skipBlanks s)
  let date : Date := ⟨year, month, day⟩
  if !(skipBlanks s).isEmpty || !date.isValid || !yearInRange year then none
  if 23 < hour || 59 < minute || 60 < second || 86400 ≤ offset.natAbs then none
  let (second, nanos) := if second = 60 then (59, nanos + 1_000_000_000) else (second, nanos)
  let seconds := date.toDays * 86400 + (hour * 3600 + minute * 60 + second : Nat) - offset
  if yearInRange (Date.ofDays (Int.fdiv seconds 86400)).year then some ⟨seconds, nanos⟩ else none

/-! ## Writing -/

def padded (width n : Nat) : String :=
  let ds := (toString n).toList
  String.ofList (List.replicate (width - ds.length) '0' ++ ds)

/-- A year of four digits; one outside of those has a sign. -/
def yearText (y : Int) : String :=
  if 0 ≤ y && y ≤ 9999 then padded 4 y.toNat
  else (if y < 0 then "-" else "+") ++ padded 4 y.natAbs

/-- The calendar date, and the time of day as hours, minutes and seconds. -/
def clockParts (t : Timestamp) : Date × Nat × Nat × Nat :=
  let days := Int.fdiv t.seconds 86400
  let rest := (t.seconds - days * 86400).toNat
  (Date.ofDays days, rest / 3600, rest / 60 % 60, rest % 60 + t.nanos / 1_000_000_000)

def dateAndTime (separator : String) (t : Timestamp) : String :=
  let (d, h, m, s) := t.clockParts
  yearText d.year ++ "-" ++ padded 2 d.month ++ "-" ++ padded 2 d.day ++ separator ++ padded 2 h
    ++ ":" ++ padded 2 m ++ ":" ++ padded 2 s

/-- The fraction with as few groups of three digits as are exact. -/
def fractionText (t : Timestamp) : String :=
  let n := t.nanos % 1_000_000_000
  if n = 0 then ""
  else if n % 1_000_000 = 0 then "." ++ padded 3 (n / 1_000_000)
  else if n % 1_000 = 0 then "." ++ padded 6 (n / 1_000)
  else "." ++ padded 9 n

/-- The form of cache entries, which ends in `Z`. -/
def zulu (t : Timestamp) : String := dateAndTime "T" t ++ fractionText t ++ "Z"

/-- The form of lock files, which ends in the offset. -/
def withOffset (t : Timestamp) : String := dateAndTime "T" t ++ fractionText t ++ "+00:00"

/-- The form for people: whole seconds. -/
def display (t : Timestamp) : String := dateAndTime " " t ++ " UTC"

end PartDepot.Timestamp
