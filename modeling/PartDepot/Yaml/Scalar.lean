import PartDepot.Yaml.Chars
import PartDepot.Text.Hex

/-!
# Reading YAML scalars

The four written forms of a text: plain, in single quotes, in double quotes, and as a block of
lines.  Inside the first three a break with blanks around it is a gap: one line feed alone reads as
a space, several as the line feeds after the first.
-/

namespace PartDepot.Yaml

/-- A run of blanks and breaks inside a scalar: the blanks before the first break, that break, and
the breaks after it. -/
structure Gap where
  blanks : List Char := []
  broken : Bool := false
  lead : List Char := []
  trail : List Char := []

namespace Gap

/-- The gap with one more blank; blanks after a break do not count. -/
def addBlank (g : Gap) (c : Char) : Gap :=
  if g.broken then g else { g with blanks := g.blanks ++ [c] }

def addBreak (g : Gap) (c : Char) : Gap :=
  if g.broken then { g with trail := g.trail ++ [c] }
  else { blanks := [], broken := true, lead := [c], trail := [] }

def fold (g : Gap) : List Char :=
  if !g.broken then g.blanks
  else if g.lead = ['\n'] then (if g.trail.isEmpty then [' '] else g.trail)
  else g.lead ++ g.trail

def escapedBreak : Gap := { broken := true }

end Gap

/-- What a scalar reader hands back: the text, the rest, where that starts, and whether the last
thing passed was a gap with a break. -/
structure Scanned where
  text : List Char
  rest : List Char
  mark : Mark
  broken : Bool

def Scanned.prepend (front : List Char) (r : Scanned) : Scanned :=
  { r with text := front ++ r.text }

/-! ## Plain -/

def isFlowEnd (c : Char) : Bool :=
  c == ',' || c == '[' || c == ']' || c == '\x7b' || c == '\x7d'

/-- A plain scalar, whose further lines must stand at `indent` or deeper outside of brackets. `word`
says that the last character read belongs to the text. -/
def scanPlain (flow : Bool) (indent : Int) :
    Bool → List Char → Mark → Gap → Option Scanned
  | _, [], m, g => some ⟨[], [], m, g.broken⟩
  | _, '\r' :: '\n' :: rest, m, g =>
    scanPlain flow indent false rest (m.newline 2) (g.addBreak '\n')
  | word, c :: rest, m, g =>
    if isBreak c then scanPlain flow indent false rest (m.newline 1) (g.addBreak (keptBreak c))
    else if isSpaceOrTab c then
      if c = '\t' && g.broken && (m.column : Int) < indent then none
      else scanPlain flow indent false rest m.next (g.addBlank c)
    else
      let stop := some ⟨[], c :: rest, m, g.broken⟩
      if !word && ((!flow && (m.column : Int) < indent) || atMarker (c :: rest) m || c = '#') then
        stop
      else if c = ':' && isGap rest.head? then stop
      else if flow && c = ':' && rest.head?.any (fun d => isFlowEnd d || d == '?') then none
      else if flow && isFlowEnd c then stop
      else (scanPlain flow indent true rest m.next {}).map (·.prepend (g.fold ++ [c]))

/-! ## Quoted -/

/-- A text in single quotes after its opening quote; a quote is written twice. -/
def scanSingle : Bool → List Char → Mark → Gap → Option Scanned
  | _, [], _, _ => none
  | _, '\r' :: '\n' :: rest, m, g => scanSingle false rest (m.newline 2) (g.addBreak '\n')
  | _, '\'' :: '\'' :: rest, m, g =>
    (scanSingle true rest (m.skip 2) {}).map (·.prepend (g.fold ++ ['\'']))
  | word, c :: rest, m, g =>
    if isBreak c then scanSingle false rest (m.newline 1) (g.addBreak (keptBreak c))
    else if isSpaceOrTab c then scanSingle false rest m.next (g.addBlank c)
    else if !word && atMarker (c :: rest) m then none
    else if c = '\'' then some ⟨g.fold, rest, m.next, false⟩
    else (scanSingle true rest m.next {}).map (·.prepend (g.fold ++ [c]))

/-- What a letter after a backslash stands for. -/
inductive Escape where
  | char (c : Char)
  | hex (digits : Nat)

def escape? : Char → Option Escape
  | '0' => some (.char '\x00')
  | 'a' => some (.char '\x07')
  | 'b' => some (.char '\x08')
  | 't' | '\t' => some (.char '\t')
  | 'n' => some (.char '\n')
  | 'v' => some (.char '\x0b')
  | 'f' => some (.char '\x0c')
  | 'r' => some (.char '\r')
  | 'e' => some (.char '\x1b')
  | ' ' => some (.char ' ')
  | '"' => some (.char '"')
  | '/' => some (.char '/')
  | '\\' => some (.char '\\')
  | 'N' => some (.char '\u0085')
  | '_' => some (.char '\u00a0')
  | 'L' => some (.char '\u2028')
  | 'P' => some (.char '\u2029')
  | 'x' => some (.hex 2)
  | 'u' => some (.hex 4)
  | 'U' => some (.hex 8)
  | _ => none

/-- The character with a code, if the code is one. -/
def charOfCode? (n : Nat) : Option Char :=
  if (0xD800 ≤ n && n ≤ 0xDFFF) || 0x10FFFF < n then none else some (Char.ofNat n)

/-- The state of a reader of double quotes: in a word, in a gap, or inside an escape with this many
hexadecimal digits to come and this value so far. -/
inductive QuoteState where
  | word
  | gap
  | hex (left value : Nat)
deriving DecidableEq

def scanDouble : QuoteState → List Char → Mark → Gap → Option Scanned
  | _, [], _, _ => none
  | .hex left value, c :: rest, m, g =>
    match Text.hexValue? c with
    | none => none
    | some d =>
      if left ≤ 1 then
        match charOfCode? (value * 16 + d) with
        | none => none
        | some x => (scanDouble .word rest m.next {}).map (·.prepend (g.fold ++ [x]))
      else scanDouble (.hex (left - 1) (value * 16 + d)) rest m.next g
  | _, '\r' :: '\n' :: rest, m, g => scanDouble .gap rest (m.newline 2) (g.addBreak '\n')
  | _, '\\' :: '\r' :: '\n' :: rest, m, g =>
    (scanDouble .gap rest (m.newline 3) .escapedBreak).map (·.prepend g.fold)
  | _, '\\' :: e :: rest, m, g =>
    if isBreak e then
      (scanDouble .gap rest (m.newline 2) .escapedBreak).map (·.prepend g.fold)
    else match escape? e with
    | none => none
    | some (.char x) => (scanDouble .word rest (m.skip 2) {}).map (·.prepend (g.fold ++ [x]))
    | some (.hex n) => scanDouble (.hex n 0) rest (m.skip 2) g
  | state, c :: rest, m, g =>
    if isBreak c then scanDouble .gap rest (m.newline 1) (g.addBreak (keptBreak c))
    else if isSpaceOrTab c then scanDouble .gap rest m.next (g.addBlank c)
    else if state != .word && atMarker (c :: rest) m then none
    else if c = '"' then some ⟨g.fold, rest, m.next, false⟩
    else if c = '\\' then none
    else (scanDouble .word rest m.next {}).map (·.prepend (g.fold ++ [c]))

/-! ## Block -/

/-- What happens to the breaks at the end of a block. -/
inductive Chomp where
  | strip
  | clip
  | keep
deriving DecidableEq

/-- The line of a block scalar's indicator: how it ends, an explicit indentation, what follows. -/
structure BlockHeader where
  chomp : Chomp
  increment : Option Nat
  rest : List Char
  mark : Mark

def chompOf? : Char → Option Chomp
  | '-' => some .strip
  | '+' => some .keep
  | _ => none

/-- The end of the indicator's line: blanks, then a comment perhaps. -/
def endOfHeader (chomp : Chomp) (increment : Option Nat) :
    Bool → List Char → Mark → Option BlockHeader
  | _, [], m => some ⟨chomp, increment, [], m⟩
  | _, '\r' :: '\n' :: rest, m => some ⟨chomp, increment, rest, m.newline 2⟩
  | comment, c :: rest, m =>
    if isBreak c then some ⟨chomp, increment, rest, m.newline 1⟩
    else if comment || c = '#' then endOfHeader chomp increment true rest m.next
    else if isSpaceOrTab c then endOfHeader chomp increment false rest m.next
    else none

/-- The indicators after `|` or `>`: a sign and a digit in either order. -/
def blockHeader (s : List Char) (m : Mark) : Option BlockHeader :=
  let digit? (c : Char) : Option Nat := if c.isDigit then some (c.toNat - '0'.toNat) else none
  match s with
  | [] => endOfHeader .clip none false [] m
  | a :: rest =>
    match chompOf? a, digit? a with
    | some chomp, _ =>
      match rest with
      | d :: rest' =>
        match digit? d with
        | some 0 => none
        | some n => endOfHeader chomp (some n) false rest' (m.skip 2)
        | none => endOfHeader chomp none false rest m.next
      | [] => endOfHeader chomp none false [] m.next
    | none, some 0 => none
    | none, some n =>
      match rest with
      | b :: rest' =>
        match chompOf? b with
        | some chomp => endOfHeader chomp (some n) false rest' (m.skip 2)
        | none => endOfHeader .clip (some n) false rest m.next
      | [] => endOfHeader .clip (some n) false [] m.next
    | none, none => endOfHeader .clip none false s m

/-- The empty lines before the first line of a block whose indentation is not given: their breaks,
the deepest column of blanks, and what follows. A tab may not stand where blanks are counted. -/
def leadingLines : Nat → List Char → Mark → Option (List Char × Nat × List Char × Mark)
  | deepest, [], m => some ([], max deepest m.column, [], m)
  | deepest, '\r' :: '\n' :: rest, m =>
    (leadingLines (max deepest m.column) rest (m.newline 2)).map fun (b, r) => ('\n' :: b, r)
  | deepest, c :: rest, m =>
    if c = ' ' then leadingLines deepest rest m.next
    else if c = '\t' then none
    else if isBreak c then
      (leadingLines (max deepest m.column) rest (m.newline 1)).map
        fun (b, r) => (keptBreak c :: b, r)
    else some ([], max deepest m.column, c :: rest, m)

/-- The breaks around the lines of a block: the one after the last line, those of the empty lines
after it, and whether that line started with a blank. -/
structure BlockGap where
  lead : List Char := []
  trail : List Char := []
  blank : Bool := false

/-- The text between two lines; in a folded block a single line feed between two lines that start
with no blank is a space, and with empty lines after it nothing. -/
def BlockGap.fold (literal : Bool) (g : BlockGap) (blankNext : Bool) : List Char :=
  if !literal && g.lead = ['\n'] && !g.blank && !blankNext then
    (if g.trail.isEmpty then [' '] else []) ++ g.trail
  else g.lead ++ g.trail

/-- The lines of a block at `indent`; `inLine` says that the position is inside a line. The gap at
the end is handed back for chomping. -/
def blockLines (literal : Bool) (indent : Nat) :
    Bool → List Char → Mark → BlockGap → Option (Scanned × BlockGap)
  | inLine, [], m, g => some (⟨[], [], m, false⟩, if inLine then { g with lead := [] } else g)
  | true, '\r' :: '\n' :: rest, m, g =>
    blockLines literal indent false rest (m.newline 2) { g with lead := ['\n'], trail := [] }
  | true, c :: rest, m, g =>
    if isBreak c then
      blockLines literal indent false rest (m.newline 1)
        { g with lead := [keptBreak c], trail := [] }
    else (blockLines literal indent true rest m.next g).map fun (r, e) => (r.prepend [c], e)
  | false, '\r' :: '\n' :: rest, m, g =>
    blockLines literal indent false rest (m.newline 2) { g with trail := g.trail ++ ['\n'] }
  | false, c :: rest, m, g =>
    if m.column < indent && c = ' ' then blockLines literal indent false rest m.next g
    else if m.column < indent && c = '\t' then none
    else if isBreak c then
      blockLines literal indent false rest (m.newline 1)
        { g with trail := g.trail ++ [keptBreak c] }
    else if m.column = indent then
      let blank := isSpaceOrTab c
      (blockLines literal indent true rest m.next { blank := blank }).map fun (r, e) =>
        (r.prepend (g.fold literal blank ++ [c]), e)
    else some (⟨[], c :: rest, m, false⟩, g)

/-- A block scalar after its indicator, inside a collection at column `parent` (`-1` for none). -/
def scanBlock (literal : Bool) (parent : Int) (s : List Char) (m : Mark) : Option Scanned := do
  let h ← blockHeader s m
  let (indent, first, rest, m) ← match h.increment with
    | some n => some ((max parent 0).toNat + n, [], h.rest, h.mark)
    | none => do
      let (breaks, deepest, rest, m) ← leadingLines 0 h.rest h.mark
      some (max deepest (max (parent + 1) 1).toNat, breaks, rest, m)
  let (r, g) ← blockLines literal indent false rest m { trail := first }
  let tail := match h.chomp with
    | .strip => []
    | .clip => g.lead
    | .keep => g.lead ++ g.trail
  some { r with text := r.text ++ tail }

end PartDepot.Yaml
