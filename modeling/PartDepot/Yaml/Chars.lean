/-!
# Characters of YAML texts

Breaks, blanks, the characters that may occur at all, and the position of a reader.
-/

namespace PartDepot.Yaml

def isBreak (c : Char) : Bool :=
  c == '\n' || c == '\r' || c == '\u0085' || c == '\u2028' || c == '\u2029'

def isSpaceOrTab (c : Char) : Bool := c == ' ' || c == '\t'

/-- A blank, a break or the end of the text. -/
def isGap : Option Char → Bool
  | none => true
  | some c => isSpaceOrTab c || isBreak c

def isAllowed (c : Char) : Bool :=
  let n := c.toNat
  n == 0x09 || n == 0x0A || n == 0x0D || (0x20 ≤ n && n ≤ 0x7E) || n == 0x85
    || (0xA0 ≤ n && n ≤ 0xD7FF) || (0xE000 ≤ n && n ≤ 0xFFFD) || 0x10000 ≤ n

def isWordChar (c : Char) : Bool := c.isAlphanum || c == '_' || c == '-'

/-- How a break inside a scalar is kept: all but the separators become a line feed. -/
def keptBreak (c : Char) : Char :=
  if c == '\u2028' || c == '\u2029' then c else '\n'

/-- A position: lines and columns count from zero, `index` counts characters. -/
structure Mark where
  line : Nat
  column : Nat
  index : Nat
deriving DecidableEq

namespace Mark

def start : Mark := ⟨0, 0, 0⟩

def next (m : Mark) : Mark := ⟨m.line, m.column + 1, m.index + 1⟩

def skip (m : Mark) (n : Nat) : Mark := ⟨m.line, m.column + n, m.index + n⟩

/-- At the start of the next line, past a break of `n` characters. -/
def newline (m : Mark) (n : Nat) : Mark := ⟨m.line + 1, 0, m.index + n⟩

end Mark

/-- Whether a document marker, three dashes or three dots, starts here. -/
def startsMarker : List Char → Bool
  | '-' :: '-' :: '-' :: rest => isGap rest.head?
  | '.' :: '.' :: '.' :: rest => isGap rest.head?
  | _ => false

/-- Whether a document marker stands at the start of a line here. -/
def atMarker (s : List Char) (m : Mark) : Bool := m.column == 0 && startsMarker s

end PartDepot.Yaml
