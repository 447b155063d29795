/-!
# Blank and control characters

The characters of the Unicode property `White_Space`, the control characters (category `Cc`), and
trimming.  The main statement is that trimming twice is trimming once.
-/

namespace PartDepot.Text

/-- The characters of the Unicode property `White_Space`. -/
def isBlank (c : Char) : Bool :=
  let n := c.toNat
  (0x09 ≤ n && n ≤ 0x0D) || n == 0x20 || n == 0x85 || n == 0xA0 || n == 0x1680
    || (0x2000 ≤ n && n ≤ 0x200A) || n == 0x2028 || n == 0x2029 || n == 0x202F
    || n == 0x205F || n == 0x3000

/-- The characters of the Unicode category `Cc`. -/
def isControl (c : Char) : Bool :=
  let n := c.toNat
  n ≤ 0x1F || (0x7F ≤ n && n ≤ 0x9F)

def dropEndWhile (p : Char → Bool) (l : List Char) : List Char :=
  (l.reverse.dropWhile p).reverse

def trimBlanks (l : List Char) : List Char :=
  dropEndWhile isBlank (l.dropWhile isBlank)

def trim (s : String) : String :=
  String.ofList (trimBlanks s.toList)

def trimEnd (c : Char) (s : String) : String :=
  String.ofList (dropEndWhile (· == c) s.toList)

def trimStart (c : Char) (s : String) : String :=
  String.ofList (s.toList.dropWhile (· == c))

def allBlank (s : String) : Bool := s.toList.all isBlank

theorem dropWhile_dropWhile (p : Char → Bool) (l : List Char) :
    (l.dropWhile p).dropWhile p = l.dropWhile p := by
  induction l with
  | nil => rfl
  | cons c l ih =>
    by_cases h : p c
    · simpa [List.dropWhile_cons, h] using ih
    · simp [h]

theorem dropEndWhile_dropEndWhile (p : Char → Bool) (l : List Char) :
    dropEndWhile p (dropEndWhile p l) = dropEndWhile p l := by
  simp [dropEndWhile, dropWhile_dropWhile]

/-- A list that starts with no member of `p` still does so when its end is cut. -/
theorem dropWhile_dropEndWhile {p : Char → Bool} {l : List Char} (h : l.dropWhile p = l) :
    (dropEndWhile p l).dropWhile p = dropEndWhile p l := by
  cases hd : dropEndWhile p l with
  | nil => rfl
  | cons c r =>
    have hprefix : dropEndWhile p l <+: l := by
      obtain ⟨t, ht⟩ := List.dropWhile_suffix (l := l.reverse) p
      refine ⟨t.reverse, ?_⟩
      have := congrArg List.reverse ht
      simpa [dropEndWhile] using this
    rw [hd] at hprefix
    obtain ⟨t, rfl⟩ := hprefix
    by_cases hc : p c
    · have hlen := congrArg List.length h
      have := (List.dropWhile_suffix (l := r ++ t) p).length_le
      simp [hc] at hlen
      simp at this
      omega
    · simp [hc]

theorem trimBlanks_trimBlanks (l : List Char) : trimBlanks (trimBlanks l) = trimBlanks l := by
  unfold trimBlanks
  rw [dropWhile_dropEndWhile (dropWhile_dropWhile isBlank l), dropEndWhile_dropEndWhile]

@[simp] theorem trim_trim (s : String) : trim (trim s) = trim s := by
  simp [trim, trimBlanks_trimBlanks]

end PartDepot.Text
