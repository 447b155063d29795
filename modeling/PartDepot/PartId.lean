import PartDepot.Text.Blank

/-!
# Part identifiers

The stable key of a part in the catalog.  Identifiers double as names of cache files, so they hold
no path separator, no two dots in a row and no control character, and have no blanks at their ends.
-/

namespace PartDepot

namespace PartId

/-- Why a text is no identifier. -/
inductive Flaw where
  | empty
  | separator
  | dots
  | control
deriving DecidableEq

def Flaw.message : Flaw → String
  | .empty => "identifier is empty"
  | .separator => "identifier contains a path separator"
  | .dots => "identifier contains '..'"
  | .control => "identifier contains control characters"

def hasTwoDots : List Char → Bool
  | '.' :: '.' :: _ => true
  | _ :: rest => hasTwoDots rest
  | [] => false

def hasSeparator (s : List Char) : Bool := s.any fun c => c == '/' || c == '\\'

def flaw? (s : String) : Option Flaw :=
  let chars := s.toList
  if chars.isEmpty then some .empty
  else if hasSeparator chars then some .separator
  else if hasTwoDots chars then some .dots
  else if chars.any Text.isControl then some .control
  else none

end PartId

/-- An identifier in its stored form. -/
structure PartId where
  text : String
  trimmed : Text.trim text = text
  flawless : PartId.flaw? text = none
deriving DecidableEq

namespace PartId

/-- The identifier a text stands for; blanks at its ends do not count. -/
def parse (raw : String) : Except Flaw PartId :=
  match h : flaw? (Text.trim raw) with
  | some f => .error f
  | none => .ok ⟨Text.trim raw, Text.trim_trim raw, h⟩

/-- The order of texts, by character codes. -/
def le (a b : PartId) : Bool := !(b.text < a.text)

@[simp] theorem parse_text (id : PartId) : parse id.text = .ok id := by
  obtain ⟨text, trimmed, flawless⟩ := id
  unfold parse
  split
  · next f h => rw [trimmed, flawless] at h; cases h
  · simp [trimmed]

end PartId

end PartDepot
