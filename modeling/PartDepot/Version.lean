/-!
# Semantic versions

Which texts are versions: three numbers, then perhaps a pre-release behind a hyphen and build data
behind a plus sign.
-/

namespace PartDepot.Version

def splitAt (sep : Char) : List Char → List (List Char)
  | [] => [[]]
  | c :: rest =>
    if c = sep then [] :: splitAt sep rest
    else match splitAt sep rest with
      | [] => [[c]]
      | p :: ps => (c :: p) :: ps

/-- A number below `2 ^ 64` without a leading zero. -/
def isNumber (s : List Char) : Bool :=
  !s.isEmpty && s.all Char.isDigit && (s.head? != some '0' || s.length == 1)
    && s.foldl (fun n d => n * 10 + (d.toNat - '0'.toNat)) 0 < 0x1_0000_0000_0000_0000

def isIdentifierChar (c : Char) : Bool := c.isAlphanum || c == '-'

/-- One part of a pre-release or of build data. A pre-release part of digits has no leading zero. -/
def isIdentifier (preRelease : Bool) (s : List Char) : Bool :=
  !s.isEmpty && s.all isIdentifierChar
    && !(preRelease && s.all Char.isDigit && s.head? == some '0' && 1 < s.length)

def areIdentifiers (preRelease : Bool) (s : List Char) : Bool :=
  (splitAt '.' s).all (isIdentifier preRelease)

def isValid (text : String) : Bool :=
  let s := text.toList
  let core := s.takeWhile fun c => c.isDigit || c == '.'
  let rest := s.dropWhile fun c => c.isDigit || c == '.'
  let numbers := splitAt '.' core
  let tail := match rest with
    | [] => true
    | '+' :: build => areIdentifiers false build
    | '-' :: more =>
      let pre := more.takeWhile (· != '+')
      areIdentifiers true pre && match more.dropWhile (· != '+') with
        | _ :: build => areIdentifiers false build
        | [] => true
    | _ => false
  numbers.length == 3 && numbers.all isNumber && tail

end PartDepot.Version
