import PartDepot.Text.Hex

/-!
# Percent encoding

Bytes outside of a set of allowed characters are written as a percent sign and two digits.  The
characters of a component that would end it, or be taken for an escape, are never allowed in it.
-/

namespace PartDepot.Percent

def bytes (c : Char) : List UInt8 := String.toUTF8 (String.singleton c) |>.toList

def encodeByte (b : UInt8) : List Char :=
  ['%', Text.upperHexDigit (b.toNat / 16), Text.upperHexDigit (b.toNat % 16)]

/-- A character, escaped if it is not ASCII, a control character, or in the set. -/
def encodeChar (escaped : Char → Bool) (c : Char) : List Char :=
  if c.toNat < 0x20 || 0x7F ≤ c.toNat || escaped c then (bytes c).flatMap encodeByte else [c]

def encode (escaped : Char → Bool) (s : List Char) : List Char := s.flatMap (encodeChar escaped)

/-- The bytes of a text whose escapes are undone; a percent sign without two digits behind it stands
for itself. -/
def decode : List Char → List UInt8
  | '%' :: a :: b :: rest =>
    match Text.hexValue? a, Text.hexValue? b with
    | some x, some y => UInt8.ofNat (x * 16 + y) :: decode rest
    | _, _ => (bytes '%') ++ decode (a :: b :: rest)
  | c :: rest => bytes c ++ decode rest
  | [] => []

/-- The text that an encoded text stands for, if it is one. -/
def decodeText (s : List Char) : Option String := String.fromUTF8? ⟨(decode s).toArray⟩

/-! ## The sets of the parts of a URL -/

def isMember (set : String) (c : Char) : Bool := set.toList.contains c

def fragment (c : Char) : Bool := isMember " \"<>`" c
def query (special : Bool) (c : Char) : Bool := isMember " \"#<>" c || (special && c == '\'')
def path (c : Char) : Bool := fragment c || isMember "#?\x7b\x7d" c
def userinfo (c : Char) : Bool := path c || isMember "/:;=@[\\]^|" c

/-- In a segment also the separators and the percent sign; the backslash separates where slashes and
backslashes mean the same. -/
def segment (special : Bool) (c : Char) : Bool :=
  path c || c == '/' || c == '%' || (special && c == '\\')

end PartDepot.Percent
