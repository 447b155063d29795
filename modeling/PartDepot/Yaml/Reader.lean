import PartDepot.Yaml.Cursor
import PartDepot.Yaml.Scalar

/-!
# Reading YAML documents

A text is read as one node or refused.  Collections are read by recursion on the column where they
stand: the content of a collection at column `n` stands to the right of `n`, its next member at `n`,
and whatever stands to the left ends it.

A key written without `?` is recognised behind the node it is made of: a colon follows on the same
line, at most 1024 characters after the start of the node.
-/

namespace PartDepot.Yaml

/-- The longest key that needs no `?`, with what stands in front of it. -/
def keyLimit : Nat := 1024

/-- The cursor behind the colon that makes the node from `start` a key. -/
def afterKey? (flow : Bool) (start : Mark) (c : Cursor) : Option Cursor :=
  let c := c.pass flow
  if c.mark.line == start.line && c.mark.index ≤ start.index + keyLimit && !c.atBoundary
      && c.atColon flow then
    some ((c.skip 1).withKey false)
  else none

/-- The node with its anchor and tag. Nothing may stand in front of an alias. -/
def Node.withProps (p : Props) : Node → Option Node
  | .scalar _ plain text => some (.scalar p plain text)
  | .sequence _ items => some (.sequence p items)
  | .mapping _ entries => some (.mapping p entries)
  | .alias id => if p = {} then some (.alias id) else none

def startsPlain (flow : Bool) (s : List Char) : Bool :=
  match s with
  | [] => false
  | c :: rest =>
    if c == '-' then !isGap rest.head?
    else if c == '?' || c == ':' then !flow && !isGap rest.head?
    else !(isSpaceOrTab c || isBreak c || ",[]\x7b\x7d#&*!|>'\"%@`".toList.contains c)

/-- The cursor after a scalar: only a plain one that ended with its line lets a key start. -/
def Cursor.after (c : Cursor) (r : Scanned) : Cursor :=
  { c with rest := r.rest, mark := r.mark, keyOk := r.broken }

def readLeaf (flow : Bool) (parent : Int) (c : Cursor) : Option (Node × Cursor) :=
  match c.rest with
  | '*' :: s => do
    let (name, rest) ← readName s
    let id ← c.scope.anchors.lookup name
    let used := c.rest.length - rest.length
    some (.alias id, { c with rest, mark := c.mark.skip used, keyOk := false })
  | '\'' :: s => do
    let r ← scanSingle true s c.mark.next {}
    some (.scalar {} false (String.ofList r.text), c.after r)
  | '"' :: s => do
    let r ← scanDouble .word s c.mark.next {}
    some (.scalar {} false (String.ofList r.text), c.after r)
  | s =>
    if startsPlain flow s then do
      let r ← scanPlain flow (parent + 1) true s c.mark {}
      some (.scalar {} true (String.ofList r.text), c.after r)
    else none

/-- A block scalar at its indicator, after which a key may start. -/
def readBlockScalar (parent : Int) (c : Cursor) : Option (Node × Cursor) :=
  match c.rest with
  | '|' :: s => do
    let r ← scanBlock true parent s c.mark.next
    some (.scalar {} false (String.ofList r.text), (c.after r).withKey true)
  | '>' :: s => do
    let r ← scanBlock false parent s c.mark.next
    some (.scalar {} false (String.ofList r.text), (c.after r).withKey true)
  | _ => none

mutual

/-- A node of a collection at column `parent`, which is empty where nothing belongs to it. `list`
says that the items of a list may stand at the column of the collection itself. -/
def readBlockNode : Nat → (parent : Int) → (list : Bool) → Cursor → Option (Node × Cursor)
  | 0, _, _, _ => none
  | fuel + 1, parent, list, c => do
    let c := c.pass false
    if c.atDirective then none
    let outside (c : Cursor) : Bool := c.atBoundary || (c.mark.column : Int) ≤ parent
    let (ps, c) ←
      if outside c then some ([], c) else readProperties false parent (c.rest.length + 1) c
    if c.atDirective then none
    let here : Int := c.mark.column
    if c.atBoundary || here < parent then
      some (← (Node.empty {}).withProps (← Props.ofList? ps), c)
    else if c.atBlockScalar then
      let props ← Props.ofList? ps
      let (n, c) ← readBlockScalar parent c
      some (← n.withProps props, c)
    else if here = parent then
      let props ← Props.ofList? ps
      if c.atDash && list then
        let (items, c) ← readDashes fuel c.mark.column true c
        some (.sequence props items, c)
      else some (← (Node.empty {}).withProps props, c)
    else readPlaced fuel parent ps c

/-- A node that stands to the right of column `parent`, behind its properties. -/
def readPlaced : Nat → (parent : Int) → List Property → Cursor → Option (Node × Cursor)
  | 0, _, _, _ => none
  | fuel + 1, parent, ps, c => do
    if c.atDash then
      if !c.keyOk then none
      let props ← Props.ofList? ps
      let (items, c) ← readDashes fuel c.mark.column false c
      some (.sequence props items, c)
    else if c.atQuestion false then
      if !c.keyOk then none
      let props ← Props.ofList? ps
      let (entries, c) ← readEntries fuel c.mark.column c
      some (.mapping props entries, c)
    else
      -- what stands on the line of the node belongs to the key if the node is one
      let inner := ps.dropWhile (·.mark.line != c.mark.line)
      let outer := ps.takeWhile (·.mark.line != c.mark.line)
      let (start, keyOk) := match inner with
        | [] => (c.mark, c.keyOk)
        | p :: _ => (p.mark, p.keyOk)
      let (leaf, after) ← if c.atColon false then
          (if inner.isEmpty then none else some (Node.empty {}, c))
        else readAtom fuel false parent c
      match if keyOk then afterKey? false start after else none with
      | some behind =>
        let key ← leaf.withProps (← Props.ofList? inner)
        let (value, c) ← readBlockNode fuel start.column true behind
        let (entries, c) ← readEntries fuel start.column c
        some (.mapping (← Props.ofList? outer) ((key, value) :: entries), c)
      | none =>
        if c.atColon false then none
        else some (← leaf.withProps (← Props.ofList? ps), after)

/-- The items of a list whose dashes stand at `column`. Items at the column of a mapping end where
another member of the mapping starts. -/
def readDashes : Nat → (column : Nat) → (inMapping : Bool) → Cursor → Option (List Node × Cursor)
  | 0, _, _, _ => none
  | fuel + 1, column, inMapping, c => do
    let (item, c) ← readBlockNode fuel column false ((c.skip 1).withKey true)
    let c := c.pass false
    if c.atDirective then none
    else if c.atBoundary || c.mark.column < column then some ([item], c)
    else if c.mark.column = column && c.atDash then
      if !c.keyOk then none
      let (items, c) ← readDashes fuel column inMapping c
      some (item :: items, c)
    else if inMapping then some ([item], c)
    else none

def readEntries : Nat → (column : Nat) → Cursor → Option (List (Node × Node) × Cursor)
  | 0, _, _ => none
  | fuel + 1, column, c => do
    let c := c.pass false
    if c.atDirective then none
    else if c.atBoundary || c.mark.column < column then some ([], c)
    else if column < c.mark.column || c.atDash || !c.keyOk then none
    else if c.atQuestion false then
      let (key, c) ← readBlockNode fuel column true ((c.skip 1).withKey true)
      let c := c.pass false
      let (value, c) ← if c.mark.column = column && c.keyOk && !c.atBoundary && c.atColon false then
          readBlockNode fuel column true ((c.skip 1).withKey true)
        else some (Node.empty {}, c)
      let (entries, c) ← readEntries fuel column c
      some ((key, value) :: entries, c)
    else
      let start := c.mark
      let (ps, c) ← readProperties false (column - 1) (c.rest.length + 1) c
      let (leaf, after) ← if c.atColon false then
          (if ps.isEmpty then none else some (Node.empty {}, c))
        else readAtom fuel false column c
      let behind ← afterKey? false start after
      let key ← leaf.withProps (← Props.ofList? ps)
      let (value, c) ← readBlockNode fuel column true behind
      let (entries, c) ← readEntries fuel column c
      some ((key, value) :: entries, c)

/-- A scalar, an alias or a collection in brackets, without what stands in front of it. -/
def readAtom : Nat → (flow : Bool) → (parent : Int) → Cursor → Option (Node × Cursor)
  | 0, _, _, _ => none
  | fuel + 1, flow, parent, c =>
    match c.rest with
    | '[' :: _ => do
      let (items, c) ← readFlowItems fuel parent true ((c.skip 1).withKey true)
      some (.sequence {} items, c)
    | '\x7b' :: _ => do
      let (entries, c) ← readFlowEntries fuel parent true ((c.skip 1).withKey true)
      some (.mapping {} entries, c)
    | _ => readLeaf flow parent c

/-- A node inside brackets. If it is a key the cursor stands behind its colon, which the
flag says. -/
def readFlowNode : Nat → (parent : Int) → Cursor → Option (Node × Bool × Cursor)
  | 0, _, _ => none
  | fuel + 1, parent, c => do
    let start := c.mark
    let keyOk := c.keyOk
    let (ps, c) ← readProperties true parent (c.rest.length + 1) c
    if c.atBoundary || c.atDirective then none
    let props ← Props.ofList? ps
    let bare := c.atColon true || c.rest.head?.any (fun d => d == ',' || d == ']' || d == '\x7d')
    let (leaf, c) ← if bare then (if ps.isEmpty then none else some (Node.empty {}, c))
      else readAtom fuel true parent c
    let node ← leaf.withProps props
    match if keyOk then afterKey? true start c else none with
    | some behind => some (node, true, behind)
    | none => some (node, false, c)

/-- The value behind a colon inside brackets, which may be missing. -/
def readFlowValue : Nat → (parent : Int) → Cursor → Option (Node × Cursor)
  | 0, _, _ => none
  | fuel + 1, parent, c => do
    let c := c.pass true
    if c.rest.head?.any (fun d => d == ',' || d == ']' || d == '\x7d') then
      some (Node.empty {}, c)
    else
      let (node, _, c) ← readFlowNode fuel parent (c.withKey false)
      some (node, c)

/-- The items of a list in square brackets, up to and with the closing one. -/
def readFlowItems : Nat → (parent : Int) → (first : Bool) → Cursor → Option (List Node × Cursor)
  | 0, _, _, _ => none
  | fuel + 1, parent, first, c => do
    let c := c.pass true
    if c.atBoundary || c.atDirective then none
    if c.rest.head? == some ']' then some ([], (c.skip 1).withKey false)
    else
      let c ← if first then some c
        else if c.rest.head? == some ',' then some (((c.skip 1).withKey true).pass true)
        else none
      if c.rest.head? == some ']' then some ([], (c.skip 1).withKey false)
      else if c.atDash then none
      else if c.atQuestion true then
        let c := ((c.skip 1).withKey false).pass true
        -- a sign directly after the question mark is passed with it
        let (key, c) ← if c.atColon true || c.rest.head? == some ',' then
            some (Node.empty {}, c.skip 1)
          else do
            let (node, _, c) ← readFlowNode fuel parent c
            some (node, c)
        let c := c.pass true
        let (value, c) ← if c.atColon true then readFlowValue fuel parent (c.skip 1)
          else some (Node.empty {}, c)
        let (items, c) ← readFlowItems fuel parent false c
        some (.mapping {} [(key, value)] :: items, c)
      else
        let (node, isKey, c) ← readFlowNode fuel parent c
        let (item, c) ← if isKey then do
            let (value, c) ← readFlowValue fuel parent c
            some (.mapping {} [(node, value)], c)
          else some (node, c)
        let (items, c) ← readFlowItems fuel parent false c
        some (item :: items, c)

/-- The members of a mapping in braces, up to and with the closing one. -/
def readFlowEntries : Nat → (parent : Int) → (first : Bool) → Cursor →
    Option (List (Node × Node) × Cursor)
  | 0, _, _, _ => none
  | fuel + 1, parent, first, c => do
    let c := c.pass true
    if c.atBoundary || c.atDirective then none
    if c.rest.head? == some '\x7d' then some ([], (c.skip 1).withKey false)
    else
      let c ← if first then some c
        else if c.rest.head? == some ',' then some (((c.skip 1).withKey true).pass true)
        else none
      if c.rest.head? == some '\x7d' then some ([], (c.skip 1).withKey false)
      else if c.atDash then none
      else
        let (key, hasValue, c) ← if c.atQuestion true then do
            let c := ((c.skip 1).withKey false).pass true
            let (key, c) ← if c.atColon true
                || c.rest.head?.any (fun d => d == ',' || d == '\x7d') then
                some (Node.empty {}, c)
              else do
                let (node, _, c) ← readFlowNode fuel parent c
                some (node, c)
            let c := c.pass true
            some (key, c.atColon true, if c.atColon true then c.skip 1 else c)
          else readFlowNode fuel parent c
        let (value, c) ← if hasValue then readFlowValue fuel parent c else some (Node.empty {}, c)
        let (entries, c) ← readFlowEntries fuel parent false c
        some ((key, value) :: entries, c)

end

/-! ## Documents -/

/-- A `%YAML` line after its name: version 1.1 or 1.2. -/
def readVersion (s : List Char) : Option (List Char) :=
  let s := s.dropWhile isSpaceOrTab
  let major := s.takeWhile Char.isDigit
  match s.dropWhile Char.isDigit with
  | '.' :: rest =>
    let minor := rest.takeWhile Char.isDigit
    let value (ds : List Char) : Nat := ds.foldl (fun n d => n * 10 + (d.toNat - '0'.toNat)) 0
    let fits (ds : List Char) : Bool := !ds.isEmpty && ds.length ≤ 9
    if fits major && fits minor && value major == 1 && (value minor == 1 || value minor == 2) then
      some (rest.dropWhile Char.isDigit)
    else none
  | _ => none

/-- A `%TAG` line after its name: a handle and what it stands for. -/
def readHandle (s : List Char) : Option ((String × String) × List Char) :=
  match s.dropWhile isSpaceOrTab with
  | '!' :: rest => do
    let word := rest.takeWhile isWordChar
    let (handle, rest) ← match rest.dropWhile isWordChar with
      | '!' :: rest => some ('!' :: word ++ ['!'], rest)
      | rest => if word.isEmpty then some (['!'], rest) else none
    if !(rest.head?.any isSpaceOrTab) then none
    let (start, rest) ← readTagText true (rest.dropWhile isSpaceOrTab)
    if start.isEmpty || !isGap rest.head? then none
    some ((String.ofList handle, start), rest)
  | _ => none

/-- The directive lines at the start of a document: the handles they declare, whether there was
any, and the cursor behind them. -/
def readDirectives : Nat → (versioned : Bool) → Cursor → Option (Bool × Cursor)
  | 0, _, _ => none
  | fuel + 1, versioned, c => do
    let c := c.pass false
    if !c.atDirective then some (false, c)
    else
      let name := (c.rest.drop 1).takeWhile isWordChar
      let body := (c.rest.drop 1).dropWhile isWordChar
      if !isGap body.head? then none
      let (versioned, scope, rest) ←
        if name == "YAML".toList then do
          if versioned then none
          some (true, c.scope, ← readVersion body)
        else if name == "TAG".toList then do
          let (h, rest) ← readHandle body
          if (c.scope.handles.lookup h.1).isSome then none
          some (versioned, { c.scope with handles := h :: c.scope.handles }, rest)
        else none
      let rest := rest.dropWhile isSpaceOrTab
      let rest := if rest.head? == some '#' then rest.dropWhile (!isBreak ·) else rest
      if !rest.head?.all isBreak then none
      let used := c.rest.length - rest.length
      let c : Cursor := { rest, mark := c.mark.skip used, keyOk := false, scope }
      let (_, c) ← readDirectives fuel versioned c
      some (true, c)

/-- What may follow a document: markers of its end. -/
def endsDocument : Nat → Cursor → Bool
  | 0, _ => false
  | fuel + 1, c =>
    let c := c.pass false
    if c.rest.isEmpty then true
    else if c.atBoundary && c.rest.head? == some '.' then
      endsDocument fuel ((c.skip 3).withKey false)
    else false

/-- Fuel for the readers of a text: no chain of calls is longer without passing a character. -/
def fuelFor (s : List Char) : Nat := 8 * s.length + 16

def parse (text : String) : Option Node := do
  let s := text.toList
  let s := if s.head? == some '\uFEFF' then s.drop 1 else s
  if !s.all isAllowed then none
  let fuel := fuelFor s
  let start : Cursor := ⟨s, .start, true, {}⟩
  let (directed, c) ← readDirectives fuel false start
  let explicit := c.atBoundary && c.rest.head? == some '-'
  if (directed && !explicit) || (c.atBoundary && !explicit) then none
  let (root, c) ← if explicit then
      let c := ((c.skip 3).withKey false).pass false
      if c.atBoundary then some (Node.empty {}, c) else readBlockNode fuel (-1) false c
    else readBlockNode fuel (-1) false c
  if endsDocument fuel c then some root else none

end PartDepot.Yaml
