import PartDepot.Yaml.Chars
import PartDepot.Yaml.Resolve
import PartDepot.Json.Printer

/-!
# Writing YAML

A document is written in block form, two blanks a level, so that every text reads back as itself: as
it stands where that is possible, else in single quotes, else in double quotes, and a text with line
feeds as a block of lines.
-/

namespace PartDepot.Yaml

/-- What can be written: scalars whose plain form is known, texts, lists and mappings. -/
inductive Tree where
  | plain (text : String)
  | text (value : String)
  | list (items : List Tree)
  | mapping (entries : List (String × Tree))

/-! ## The form of a text -/

/-- The characters that are written as they are in every form but the escaped one. -/
def isPrintable (c : Char) : Bool :=
  let n := c.toNat
  n == 0x0A || (0x20 ≤ n && n ≤ 0x7E) || (0xA0 ≤ n && n ≤ 0xD7FF)
    || (0xE000 ≤ n && n ≤ 0xFFFD && n != 0xFEFF) || 0x10000 ≤ n

/-- What rules out some way of writing a text. -/
structure Shape where
  multiline : Bool
  /-- It would be taken for something else than a plain scalar. -/
  indicators : Bool
  /-- A blank or a break stands at an end. -/
  outerGap : Bool
  endsBlank : Bool
  breakBlank : Bool
  /-- A break follows a blank, or some character needs an escape. -/
  special : Bool
deriving DecidableEq

/-- A sign that cannot start a plain scalar; the last three only before a gap. -/
def isLeadingSign (c : Char) (next : Option Char) : Bool :=
  "#,[]\x7b\x7d&*!|>'\"%@`".toList.contains c
    || ((c == '?' || c == ':' || c == '-') && isGap next)

/-- Whether a colon before a gap, or a number sign behind one, stands after the first character. -/
def hasInnerSign : Char → List Char → Bool
  | _, [] => false
  | previous, c :: rest =>
    (c == ':' && isGap rest.head?) || (c == '#' && isGap (some previous)) || hasInnerSign c rest

/-- Whether some character satisfies `p` and the one behind it `q`. -/
def hasPair (p q : Char → Bool) : List Char → Bool
  | a :: b :: rest => (p a && q b) || hasPair p q (b :: rest)
  | _ => false

def startsLikeMarker : List Char → Bool
  | '-' :: '-' :: '-' :: _ => true
  | '.' :: '.' :: '.' :: _ => true
  | _ => false

def shape (s : List Char) : Shape :=
  let isOuter (c : Option Char) : Bool := c.any fun c => c == ' ' || isBreak c
  { multiline := s.any isBreak
    indicators := startsLikeMarker s || match s with
      | [] => false
      | c :: rest => isLeadingSign c rest.head? || hasInnerSign c rest
    outerGap := isOuter s.head? || isOuter s.getLast?
    endsBlank := s.getLast? == some ' '
    breakBlank := hasPair isBreak (· == ' ') s
    special := hasPair (· == ' ') isBreak s || s.any (!isPrintable ·) }

/-- How a text is written. -/
inductive Form where
  | plain
  | single
  | double
  | literal
deriving DecidableEq

/-- The form of a text. A text with line feeds is a block of lines where one may stand; a text that
would stand for something else is quoted. -/
def form (s : String) : Form :=
  let chars := s.toList
  let sh := shape chars
  let quoted := if sh.breakBlank || sh.special then Form.double else .single
  if chars.contains '\n' then
    (if sh.endsBlank || sh.special then .double else .literal)
  else if resolve s != .text || hasLeadingZero chars then quoted
  else if sh.multiline || sh.indicators || sh.outerGap || sh.breakBlank || sh.special then quoted
  else .plain

/-! ## Texts -/

def indentation (n : Nat) : List Char := List.replicate n ' '

/-- The text in single quotes. Breaks stand for themselves, and the line after one is indented. -/
def singleBody (indent : Nat) : (broken : Bool) → List Char → List Char
  | broken, [] => if broken then indentation indent else []
  | broken, c :: rest =>
    if isBreak c then c :: singleBody indent true rest
    else
      (if broken then indentation indent else [])
        ++ (if c = '\'' then ['\'', '\''] else [c]) ++ singleBody indent false rest

def doubleChar (c : Char) : List Char :=
  if c = '"' then ['\\', '"']
  else if c = '\\' then ['\\', '\\']
  else if isPrintable c && !isBreak c then [c]
  else if c = '\x00' then ['\\', '0']
  else if c = '\x07' then ['\\', 'a']
  else if c = '\x08' then ['\\', 'b']
  else if c = '\t' then ['\\', 't']
  else if c = '\n' then ['\\', 'n']
  else if c = '\x0b' then ['\\', 'v']
  else if c = '\x0c' then ['\\', 'f']
  else if c = '\r' then ['\\', 'r']
  else if c = '\x1b' then ['\\', 'e']
  else if c = '\u0085' then ['\\', 'N']
  else if c = '\u2028' then ['\\', 'L']
  else if c = '\u2029' then ['\\', 'P']
  else if c.toNat ≤ 0xFF then '\\' :: 'x' :: Text.upperHex 2 c.toNat
  else if c.toNat ≤ 0xFFFF then '\\' :: 'u' :: Text.upperHex 4 c.toNat
  else '\\' :: 'U' :: Text.upperHex 8 c.toNat

/-- The hints behind the indicator of a block: the indentation if the text starts with a blank or a
break, and how the text ends. -/
def blockHints (s : List Char) : List Char :=
  let start := if s.head?.any fun c => c == ' ' || isBreak c then ['2'] else []
  let finish := match s.reverse with
    | [] => ['-']
    | last :: before =>
      if !isBreak last then ['-']
      else match before with
        | [] => ['+']
        | b :: _ => if isBreak b then ['+'] else []
  start ++ finish

/-- The lines of a block; the first character of each line is indented. -/
def literalBody (indent : Nat) : (broken : Bool) → List Char → List Char
  | _, [] => []
  | broken, c :: rest =>
    if isBreak c then c :: literalBody indent true rest
    else (if broken then indentation indent else []) ++ c :: literalBody indent false rest

/-- A text in its form, where the lines of a longer one stand at `indent`, and the end of its last
line. -/
def renderText (indent : Nat) (s : String) : List Char :=
  let chars := s.toList
  match form s with
  | .plain => chars ++ ['\n']
  | .single => '\'' :: singleBody indent false chars ++ ['\'', '\n']
  | .double => '"' :: chars.flatMap doubleChar ++ ['"', '\n']
  | .literal =>
    let body := '|' :: blockHints chars ++ '\n' :: literalBody indent true chars
    if chars.getLast?.any isBreak then body else body ++ ['\n']

/-- Keys of one line and of at most this many bytes need no `?`. -/
def keyBytes : Nat := 128

def isSimpleKey (key : String) : Bool :=
  !key.toList.any isBreak && key.utf8ByteSize ≤ keyBytes

/-! ## Collections -/

/-- A key at column `indent` with the colon behind it: on one line, or written out behind `?`. -/
def renderKey (indent : Nat) (key : String) : List Char :=
  let text := renderText (indent + 2) key
  -- the text of a key ends with its line, where the colon goes instead
  if isSimpleKey key then text.dropLast ++ [':']
  else '?' :: ' ' :: text ++ indentation indent ++ [':']

mutual

/-- What stands behind a dash or a colon at column `indent`, up to the end of the value. Where
`inline` says so a collection starts on the same line, two columns further; else it starts on the
next line, a list at the column itself. -/
def renderValue (indent : Nat) (inline : Bool) : Tree → List Char
  | .plain t => ' ' :: t.toList ++ ['\n']
  | .text s => ' ' :: renderText (indent + 2) s
  | .list [] => [' ', '[', ']', '\n']
  | .mapping [] => [' ', '\x7b', '\x7d', '\n']
  | .list items =>
    if inline then ' ' :: renderItems (indent + 2) items
    else '\n' :: indentation indent ++ renderItems indent items
  | .mapping entries =>
    if inline then ' ' :: renderEntries (indent + 2) entries
    else '\n' :: indentation (indent + 2) ++ renderEntries (indent + 2) entries

/-- The items of a list at column `indent`, where the first dash is about to be written. -/
def renderItems (indent : Nat) : List Tree → List Char
  | [] => []
  | [item] => '-' :: renderValue indent true item
  | item :: rest =>
    '-' :: renderValue indent true item ++ indentation indent ++ renderItems indent rest

/-- The members of a mapping at column `indent`, where the first key is about to be written. -/
def renderEntries (indent : Nat) : List (String × Tree) → List Char
  | [] => []
  | [(key, value)] => renderKey indent key ++ renderValue indent (!isSimpleKey key) value
  | (key, value) :: rest =>
    renderKey indent key ++ renderValue indent (!isSimpleKey key) value ++ indentation indent
      ++ renderEntries indent rest

end

def renderDocument (entries : List (String × Tree)) : String :=
  String.ofList (renderEntries 0 entries)

mutual

def Tree.ofJson : Json → Tree
  | .null => .plain "null"
  | .bool true => .plain "true"
  | .bool false => .plain "false"
  | .number n => .plain (Json.renderNumber n)
  | .string s => .text s
  | .array items => .list (Tree.ofItems items)
  | .object fields => .mapping (Tree.ofFields fields)

def Tree.ofItems : List Json → List Tree
  | [] => []
  | v :: rest => Tree.ofJson v :: Tree.ofItems rest

def Tree.ofFields : List (String × Json) → List (String × Tree)
  | [] => []
  | (k, v) :: rest => (k, Tree.ofJson v) :: Tree.ofFields rest

end

end PartDepot.Yaml
