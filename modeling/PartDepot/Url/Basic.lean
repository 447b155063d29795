import PartDepot.Url.Host

/-!
# URLs

A URL is read by cutting it at its delimiters: scheme, authority, path, query, fragment.
Blanks and control characters around the text, and tabs and breaks inside of it, do not
count.  In the well-known schemes a backslash is a slash and the path has at least one
segment; dot segments are resolved.

`Url.push` adds one segment to the path, encoded so that it stays one segment.
-/

namespace PartDepot

structure Url where
  scheme : List Char
  /-- Name and password in front of the host, encoded. -/
  userinfo : List Char := []
  /-- The host, of a URL that has an authority. -/
  host : Option (List Char) := none
  port : Option Nat := none
  path : List Char
  query : Option (List Char) := none
  fragment : Option (List Char) := none
deriving DecidableEq

namespace Url

def isTabOrBreak (c : Char) : Bool := c == '\t' || c == '\n' || c == '\r'

/-- The schemes whose URLs have a host and a hierarchical path. -/
def isSpecial (scheme : List Char) : Bool :=
  ["http", "https", "ws", "wss", "ftp", "file"].any (·.toList == scheme)

def defaultPort? (scheme : List Char) : Option Nat :=
  if scheme == "http".toList || scheme == "ws".toList then some 80
  else if scheme == "https".toList || scheme == "wss".toList then some 443
  else if scheme == "ftp".toList then some 21
  else none

/-! ## Paths -/

/-- The spellings of one dot and of two dots. -/
def dots (s : List Char) : Nat :=
  let plain := go s
  if plain == ['.'] then 1 else if plain == ['.', '.'] then 2 else 0
where
  go : List Char → List Char
    | '%' :: '2' :: 'e' :: rest => '.' :: go rest
    | '%' :: '2' :: 'E' :: rest => '.' :: go rest
    | c :: rest => c :: go rest
    | [] => []

def upToSlash (path : List Char) : List Char := (path.reverse.dropWhile (· != '/')).reverse

/-- The path, which ends in a slash, without its last segment. -/
def leaveSegment (path : List Char) : List Char :=
  upToSlash (if 1 < path.length then path.dropLast else path)

/-- A path that ends in a slash with one encoded segment after it; dot segments move instead. -/
def addSegment (path segment : List Char) : List Char :=
  match dots segment with
  | 1 => path
  | 2 => leaveSegment path
  | _ => path ++ segment

def withSlash (path : List Char) : List Char :=
  if path.getLast? == some '/' then path else path ++ ['/']

/-- Splits at slashes, and at backslashes where those are slashes. -/
def splitPath (special : Bool) : List Char → List (List Char)
  | [] => [[]]
  | c :: rest =>
    match splitPath special rest with
    | [] => [[c]]
    | p :: ps => if c = '/' || (special && c = '\\') then [] :: p :: ps else (c :: p) :: ps

def pathOf (segments : List (List Char)) : List Char :=
  let rec go (path : List Char) : List (List Char) → List Char
    | [] => path
    | [last] => addSegment path (Percent.encode Percent.path last)
    | s :: rest =>
      let moved := addSegment path (Percent.encode Percent.path s)
      go (if dots (Percent.encode Percent.path s) = 0 then moved ++ ['/'] else withSlash moved) rest
  go ['/'] segments

/-! ## Reading -/

/-- Drops blanks and control characters at both ends, and tabs and breaks everywhere. -/
def clean (s : List Char) : List Char :=
  let outer (c : Char) : Bool := c.toNat ≤ 0x20
  (((s.dropWhile outer).reverse.dropWhile outer).reverse).filter (!isTabOrBreak ·)

def cutScheme (s : List Char) : Option (List Char × List Char) :=
  let isSchemeChar (c : Char) : Bool := c.isAlphanum || c == '+' || c == '-' || c == '.'
  match s.dropWhile isSchemeChar with
  | ':' :: rest =>
    let scheme := s.takeWhile isSchemeChar
    if scheme.head?.any Char.isAlpha then some (scheme.map Char.toLower, rest) else none
  | _ => none

def endsAuthority (special : Bool) (c : Char) : Bool :=
  c == '/' || c == '?' || c == '#' || (special && c == '\\')

/-- The text of a host up to its port: colons between brackets belong to it. -/
def cutHost : (bracket : Bool) → List Char → List Char × List Char
  | _, [] => ([], [])
  | bracket, c :: rest =>
    if c = ':' && !bracket then ([], c :: rest)
    else
      let bracket := if c = '[' then true else if c = ']' then false else bracket
      let (host, after) := cutHost bracket rest
      (c :: host, after)

/-- Name and password, encoded, with the sign behind them. -/
def userinfoText (s : List Char) : List Char :=
  let enc := Percent.encode Percent.userinfo
  let name := s.takeWhile (· != ':')
  let password := (s.dropWhile (· != ':')).drop 1
  let text := enc name ++ (if password.isEmpty then [] else ':' :: enc password)
  if text.isEmpty then [] else text ++ ['@']

/-- A port after its colon; the usual one of the scheme is left out. -/
def readPort (scheme : List Char) (s : List Char) : Except UrlFlaw (Option Nat) :=
  if !s.all Char.isDigit then .error .port
  else
    let n := s.foldl (fun n d => min (n * 10 + (d.toNat - '0'.toNat)) 65536) 0
    if 65535 < n then .error .port
    else .ok (if s.isEmpty || some n == defaultPort? scheme then none else some n)

/-- The authority: what stands in front of the host, the host and the port. -/
def readAuthority (scheme : List Char) (s : List Char) (slashFollows : Bool) :
    Except UrlFlaw (List Char × List Char × Option Nat) := do
  let special := isSpecial scheme
  let after := (s.reverse.takeWhile (· != '@')).reverse
  let hasUser := s.contains '@'
  let user := if hasUser then s.take (s.length - after.length - 1) else []
  if hasUser && user.isEmpty && after.isEmpty && slashFollows then throw .emptyHost
  let (hostText, portText) := cutHost false after
  let host ← if special then Host.parse hostText else Host.parseOpaque hostText
  if host.isEmpty && !portText.isEmpty then throw .emptyHost
  let port ← readPort scheme (portText.drop 1)
  let userinfo := userinfoText user
  if host.isEmpty && !userinfo.isEmpty then throw .emptyHost
  return (userinfo, host, port)

def cutTail (special : Bool) (s : List Char) :
    List Char × Option (List Char) × Option (List Char) :=
  let body := s.takeWhile (· != '#')
  let fragment := match s.dropWhile (· != '#') with
    | _ :: f => some (Percent.encode Percent.fragment f)
    | [] => none
  let query := match body.dropWhile (· != '?') with
    | _ :: q => some (Percent.encode (Percent.query special) q)
    | [] => none
  (body.takeWhile (· != '?'), query, fragment)

/-- The part of a URL after its scheme and the slashes in front of the authority. -/
def readAfterSlashes (scheme : List Char) (s : List Char) : Except UrlFlaw Url := do
  let special := isSpecial scheme
  let authority := s.takeWhile (!endsAuthority special ·)
  let rest := s.dropWhile (!endsAuthority special ·)
  let (userinfo, host, port) ← readAuthority scheme authority (!rest.isEmpty)
  let (path, query, fragment) := cutTail special rest
  let path := match path with
    | [] => if special then ['/'] else []
    | _ :: segments => pathOf (splitPath special segments)
  return { scheme, userinfo, host := some host, port, path, query, fragment }

/-- A URL of the file scheme after its colon. The host of this machine is left out. -/
def readFile (scheme : List Char) (s : List Char) : Except UrlFlaw Url := do
  let (body, query, fragment) := cutTail true s
  let isSlash (c : Char) : Bool := c == '/' || c == '\\'
  let (host, segments) ← match body with
    | a :: b :: rest =>
      if isSlash a && isSlash b then
        let name := rest.takeWhile (!isSlash ·)
        let host ← if name.isEmpty then pure [] else Host.parse name
        pure (if host == "localhost".toList then [] else host, (rest.dropWhile (!isSlash ·)).drop 1)
      else pure ([], if isSlash a then b :: rest else body)
    | [a] => pure ([], if isSlash a then [] else body)
    | [] => pure ([], [])
  let path := pathOf (splitPath true segments)
  return { scheme, host := some host, path := '/' :: path.dropWhile (· == '/'), query, fragment }

def parse (text : String) : Except UrlFlaw Url :=
  let s := clean text.toList
  match cutScheme s with
  | none => .error .relative
  | some (scheme, rest) =>
    if scheme == "file".toList then readFile scheme rest
    else if isSpecial scheme then
      readAfterSlashes scheme (rest.dropWhile fun c => c == '/' || c == '\\')
    else match rest with
      | '/' :: '/' :: rest => readAfterSlashes scheme rest
      | '/' :: _ =>
        let (path, query, fragment) := cutTail false rest
        .ok { scheme, path := pathOf (splitPath false (path.drop 1)), query, fragment }
      | _ =>
        let (path, query, fragment) := cutTail false rest
        .ok { scheme, path := Percent.encode (fun _ => false) path, query, fragment }

/-! ## Writing -/

/-- What stands between scheme and path. Without a host two slashes at the start of the path would
read as an authority, so a dot is put in front of them. -/
def authorityText (u : Url) : List Char :=
  match u.host with
  | none =>
    match u.path with
    | '/' :: '/' :: _ => ['/', '.']
    | _ => []
  | some host =>
    '/' :: '/' :: u.userinfo ++ host
      ++ match u.port with
        | none => []
        | some p => ':' :: (toString p).toList

def queryText (u : Url) : List Char :=
  match u.query with
  | none => []
  | some q => '?' :: q

def text (u : Url) : String :=
  String.ofList (u.scheme ++ ':' :: u.authorityText ++ u.path ++ u.queryText
    ++ match u.fragment with
      | none => []
      | some f => '#' :: f)

/-- The text that goes over the wire: without name, password and fragment. -/
def wireText (u : Url) : String :=
  { u with userinfo := [], fragment := none }.text

def isHttp (u : Url) : Bool :=
  (u.scheme == "http".toList || u.scheme == "https".toList) && u.host.any (!·.isEmpty)

/-! ## Extending the path -/

def isHierarchical (u : Url) : Bool :=
  isSpecial u.scheme || u.host.isSome || u.path.head? == some '/'

def dropEmptyEnd (path : List Char) : List Char :=
  if 1 < path.length && path.getLast? == some '/' then path.dropLast else path

/-- A path with one raw segment more. A segment of one dot or two is passed over. -/
def pushSegment (special : Bool) (path segment : List Char) : List Char :=
  if segment == ['.'] || segment == ['.', '.'] then path
  else
    let base := if path.length == 1 then path else path ++ ['/']
    addSegment base (Percent.encode (Percent.segment special) (segment.filter (!isTabOrBreak ·)))

/-- The URL with more segments behind its path, if it has segments at all. -/
def extend? (u : Url) (segments : List String) : Option Url :=
  if u.isHierarchical then
    let special := isSpecial u.scheme
    some { u with
      path := (segments.map String.toList).foldl (pushSegment special) (dropEmptyEnd u.path) }
  else none

/-- The encoded segments of a path, behind its first slash. -/
def segments (u : Url) : List (List Char) :=
  match u.path with
  | [] => []
  | _ :: rest => splitPath false rest

end Url

end PartDepot
