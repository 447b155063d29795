import PartDepot.Yaml.Node
import PartDepot.Yaml.Chars
import PartDepot.Text.Hex

/-!
# Positions of a YAML reader

A cursor is the text that is left with what the reader knows there: the position, whether a key
written without `?` may start, and the anchors and tag handles in scope.  This module passes the
gaps between tokens and reads what may stand in front of a node.
-/

namespace PartDepot.Yaml

/-- Tag handles with their prefixes, and the anchor numbers in force, the newest first. -/
structure Scope where
  handles : List (String × String) := []
  anchors : List (String × Nat) := []

namespace Scope

/-- A handle declared in the document, or one of the two that every document has. -/
def handle? (s : Scope) (handle : String) : Option String :=
  match s.handles.lookup handle with
  | some p => some p
  | none =>
    if handle = "!" then some "!"
    else if handle = "!!" then some "tag:yaml.org,2002:"
    else none

def names (s : Scope) : Nat := (s.anchors.map (·.1)).eraseDups.length

/-- A new anchor takes the number of different names before it. -/
def declare (s : Scope) (name : String) : Nat × Scope :=
  let id := s.names
  (id, { s with anchors := (name, id) :: s.anchors })

end Scope

structure Cursor where
  rest : List Char
  mark : Mark
  keyOk : Bool
  scope : Scope

namespace Cursor

def skip (c : Cursor) (n : Nat) : Cursor :=
  { c with rest := c.rest.drop n, mark := c.mark.skip n }

def withKey (c : Cursor) (keyOk : Bool) : Cursor := { c with keyOk := keyOk }

/-- The next character stands alone: what follows it is a gap. -/
def standsAlone (c : Cursor) : Bool := isGap (c.rest.drop 1).head?

def atBoundary (c : Cursor) : Bool := c.rest.isEmpty || atMarker c.rest c.mark

def atDirective (c : Cursor) : Bool := c.mark.column == 0 && c.rest.head? == some '%'

def atDash (c : Cursor) : Bool := c.rest.head? == some '-' && c.standsAlone

def atQuestion (flow : Bool) (c : Cursor) : Bool :=
  c.rest.head? == some '?' && (flow || c.standsAlone)

def atColon (flow : Bool) (c : Cursor) : Bool :=
  c.rest.head? == some ':' && (flow || c.standsAlone)

def atBlockScalar (c : Cursor) : Bool := c.rest.head? == some '|' || c.rest.head? == some '>'

end Cursor

/-- Passes blanks, comments and breaks, and a byte order mark at the start of a line. Outside of
brackets a break allows a key again, and while a key may start a tab is no blank. -/
def passGap (flow : Bool) : (comment : Bool) → List Char → Mark → (keyOk : Bool) →
    List Char × Mark × Bool
  | _, [], m, k => ([], m, k)
  | _, '\r' :: '\n' :: rest, m, k => passGap flow false rest (m.newline 2) (!flow || k)
  | comment, c :: rest, m, k =>
    if isBreak c then passGap flow false rest (m.newline 1) (!flow || k)
    else if comment || c = '#' then passGap flow true rest m.next k
    else if c = ' ' || (c = '\t' && (flow || !k)) || (c = '\uFEFF' && m.column = 0) then
      passGap flow false rest m.next k
    else (c :: rest, m, k)

def Cursor.pass (flow : Bool) (c : Cursor) : Cursor :=
  let (rest, mark, keyOk) := passGap flow false c.rest c.mark c.keyOk
  { c with rest, mark, keyOk }

/-! ## Anchors and tags -/

/-- The name after `&` or `*`, which needs a character and a gap or closing sign behind it. -/
def readName (s : List Char) : Option (String × List Char) :=
  let name := s.takeWhile isWordChar
  let rest := s.dropWhile isWordChar
  let closes := match rest with
    | [] => true
    | c :: _ => isGap (some c) || "?:,]\x7d%@`".toList.contains c
  if name.isEmpty || !closes then none else some (String.ofList name, rest)

/-- The signs that a tag may hold beside word characters; the last three only between `<`
and `>`. -/
def isTagChar (verbatim : Bool) (c : Char) : Bool :=
  isWordChar c || ";/?:@&=+$.%!~*'()".toList.contains c
    || (verbatim && (c == ',' || c == '[' || c == ']'))

/-- The bytes written with percent signs at the start of the text. -/
def percentBytes : List Char → List Nat
  | '%' :: a :: b :: rest =>
    match Text.hexValue? a, Text.hexValue? b with
    | some x, some y => (x * 16 + y) :: percentBytes rest
    | _, _ => []
  | _ => []

def utf8Width (lead : Nat) : Nat :=
  if lead < 0x80 then 1 else if lead < 0xC0 then 0 else if lead < 0xE0 then 2
  else if lead < 0xF0 then 3 else if lead < 0xF8 then 4 else 0

/-- The text of a tag, with percent escapes read as the characters they spell. -/
def unescapeTag : Nat → List Char → Option (List Char)
  | 0, _ => none
  | _, [] => some []
  | fuel + 1, '%' :: rest => do
    let bytes := percentBytes ('%' :: rest)
    let lead ← bytes.head?
    let width := utf8Width lead
    let taken := bytes.take width
    if width = 0 || taken.length < width then none
    else
      let text ← String.fromUTF8? ⟨(taken.map UInt8.ofNat).toArray⟩
      (unescapeTag fuel (('%' :: rest).drop (3 * width))).map (text.toList ++ ·)
  | fuel + 1, c :: rest => (unescapeTag fuel rest).map (c :: ·)

def readTagText (verbatim : Bool) (s : List Char) : Option (String × List Char) := do
  let raw := s.takeWhile (isTagChar verbatim)
  let text ← unescapeTag (raw.length + 1) raw
  some (String.ofList text, s.dropWhile (isTagChar verbatim))

/-- A tag at its exclamation mark, resolved: the tag and what follows. -/
def readTag (scope : Scope) (s : List Char) : Option (String × List Char) :=
  match s with
  | '!' :: '<' :: rest => do
    let (text, rest) ← readTagText true rest
    match rest with
    | '>' :: rest => if text.isEmpty then none else some (text, rest)
    | _ => none
  | '!' :: rest =>
    let word := rest.takeWhile isWordChar
    match rest.dropWhile isWordChar with
    | '!' :: after => do
      -- a named handle, and what it is the start of
      let start ← scope.handle? (String.ofList ('!' :: word ++ ['!']))
      let (text, rest) ← readTagText false after
      if text.isEmpty then none else some (start ++ text, rest)
    | _ => do
      let (text, rest) ← readTagText false rest
      if text.isEmpty then some ("!", rest)
      else
        let start ← scope.handle? "!"
        some (start ++ text, rest)
  | _ => none

/-- One anchor or tag with the place where it starts. -/
structure Property where
  mark : Mark
  keyOk : Bool
  anchor : Option Nat
  tag : Option String

/-- The anchors and tags in front of a node, and the cursor at the token after them. Outside of
brackets all of them stand to the right of column `parent`. -/
def readProperties (flow : Bool) (parent : Int) : Nat → Cursor → Option (List Property × Cursor)
  | 0, _ => none
  | fuel + 1, c =>
    let continueWith (p : Property) (rest : List Char) (scope : Scope) := do
      let used := c.rest.length - rest.length
      let after : Cursor := { rest, mark := c.mark.skip used, keyOk := false, scope }
      let next := after.pass flow
      if !flow && (next.mark.column : Int) ≤ parent then some ([p], next)
      else
        let (more, c) ← readProperties flow parent fuel next
        some (p :: more, c)
    match c.rest with
    | '&' :: s => do
      let (name, rest) ← readName s
      let (id, scope) := c.scope.declare name
      continueWith ⟨c.mark, c.keyOk, some id, none⟩ rest scope
    | '!' :: _ => do
      let (tag, rest) ← readTag c.scope c.rest
      if isGap rest.head? || (flow && rest.head? == some ',') then
        continueWith ⟨c.mark, c.keyOk, none, some tag⟩ rest c.scope
      else none
    | _ => some ([], c)

def Props.ofList? (ps : List Property) : Option Props :=
  let anchors := ps.filterMap (·.anchor)
  let tags := ps.filterMap (·.tag)
  if anchors.length ≤ 1 && tags.length ≤ 1 then some ⟨anchors.head?, tags.head?⟩ else none

end PartDepot.Yaml
