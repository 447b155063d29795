import PartDepot.Json.Printer
import PartDepot.Json.Record
import PartDepot.PartId
import PartDepot.Text.Utf8
import PartDepot.Url.Basic
import PartDepot.World

/-!
# The catalog

Requests to the catalog of parts.  Every call first asks the offline gate; when that says no the
call fails and nothing is sent.  All requests go through `Catalog.exchange`.
-/

namespace PartDepot

/-! ## The network -/

/-- What comes back for a request. -/
inductive Reply where
  | answer (status : Nat) (body : ByteArray)
  /-- The connection closed without an answer. -/
  | broken

/-- The world outside: which addresses take a connection, and what a request is answered after a
number of requests. -/
structure Network where
  connects : Url → Bool
  reply : Nat → Request → Reply

namespace Network

def unreachable : Network := ⟨fun _ => false, fun _ _ => .broken⟩

/-- Plain HTTP to anywhere, answered from a table by method and URL; what is not in the table does
not exist. -/
def ofRoutes (routes : List (String × Reply)) : Network where
  connects u := u.scheme == "http".toList
  reply _ r :=
    let method := match r.method with
      | .get => "GET "
      | .post => "POST "
    (routes.lookup (method ++ r.url)).getD (.answer 404 ByteArray.empty)

end Network

/-! ## Answers -/

structure CatalogResponse where
  url : String
  status : Nat
  body : String
deriving DecidableEq

namespace CatalogResponse

def json (r : CatalogResponse) : Except FetchError Json :=
  match Json.parse r.body with
  | some v => .ok v
  | none => .error (.decode r.url)

end CatalogResponse

/-- Where the archive of a package is, and its digest if the catalog knows it. -/
structure PackageRelease where
  url : String
  digest : Option String
deriving DecidableEq

namespace PackageRelease

/-- A text that may be `null`. -/
def optionalText? : Json → Option (Option String)
  | .null => some none
  | .string s => some (some s)
  | _ => none

/-- A release from a list of its fields in order; the digest may be left out. -/
def ofItems? : List Json → Option PackageRelease
  | [.string url] => some ⟨url, none⟩
  | [.string url, digest] => (optionalText? digest).map (⟨url, ·⟩)
  | _ => none

/-- A release from its named fields; the digest may be left out. -/
def ofMembers? (members : List (String × Json)) : Option PackageRelease := do
  let digest ← match ← Json.member? "digest" members with
    | some v => optionalText? v
    | none => some none
  match ← Json.member? "url" members with
  | some (.string url) => some ⟨url, digest⟩
  | _ => none

def parse (text : String) : Option PackageRelease :=
  match Json.parseRecord ["url", "digest"] text with
  | some members => ofMembers? members
  | none =>
    match Json.parse text with
    | some (.array items) => ofItems? items
    | _ => none

end PackageRelease

namespace CatalogResponse

def release (r : CatalogResponse) : Except FetchError PackageRelease :=
  match PackageRelease.parse r.body with
  | some p => .ok p
  | none => .error (.decode r.url)

end CatalogResponse

/-! ## Requests -/

structure Catalog where
  /-- The address without slashes at its end. -/
  baseUrl : String
  network : Network

namespace Catalog

def userAgent : String := "partfetch/0.1.0"

def ofUrl (url : String) (network : Network) : Catalog := ⟨Text.trimEnd '/' url, network⟩

def pathUrl (c : Catalog) (path : String) : String := c.baseUrl ++ "/" ++ Text.trimStart '/' path

/-- The address of segments below the base; each is encoded so that it stays one segment. -/
def segmentUrl (c : Catalog) (segments : List String) : Except FetchError String :=
  match Url.parse c.baseUrl with
  | .error flaw => .error (.invalidUrl c.baseUrl flaw.message)
  | .ok base =>
    match base.extend? segments with
    | none => .error (.invalidUrl c.baseUrl "URL cannot be a base")
    | some url => .ok url.text

def ensureOnline (operation : String) : Act FetchError Unit := fun w =>
  if w.offline then (.error (.notConfigured operation), w) else (.ok (), w)

def exchange {ε : Type} (c : Catalog) (r : Request) : Act ε Reply := fun w =>
  (.ok (c.network.reply w.requests.length r), w.record (.sent r w.offline))

/-- The request for a URL, with a JSON body if it posts one. -/
def requestFor (url : Url) (body : Option Json) : Request where
  method := if body.isSome then .post else .get
  url := url.wireText
  userAgent := userAgent
  contentType := body.map fun _ => "application/json"
  body := body.map Json.render

/-- One request: the status and the bytes of an answer that is a success. An answer with status 204
has no bytes. -/
def send (c : Catalog) (url : String) (body : Option Json) : Act FetchError (Nat × ByteArray) :=
  match Url.parse url with
  | .error _ => Act.fail (.request url)
  | .ok address =>
    if address.isHttp && c.network.connects address then do
      match ← c.exchange (requestFor address body) with
      | .broken => Act.fail (.request url)
      | .answer status bytes =>
        if 200 ≤ status ∧ status ≤ 299 then
          return (status, if status = 204 then ByteArray.empty else bytes)
        else Act.fail (.status url status)
    else Act.fail (.request url)

def sendText (c : Catalog) (url : String) (body : Option Json) :
    Act FetchError CatalogResponse := do
  let (status, bytes) ← c.send url body
  return ⟨url, status, Text.decodeLossy bytes⟩

def get (c : Catalog) (path : String) : Act FetchError CatalogResponse := do
  ensureOnline s!"GET {path}"
  c.sendText (c.pathUrl path) none

def getSegments (c : Catalog) (segments : List String) : Act FetchError CatalogResponse := do
  ensureOnline ("GET /" ++ "/".intercalate segments)
  let url ← Act.ofExcept (c.segmentUrl segments)
  c.sendText url none

def post (c : Catalog) (path : String) (body : Json) : Act FetchError CatalogResponse := do
  ensureOnline s!"POST {path}"
  c.sendText (c.pathUrl path) (some body)

/-- The bytes at a URL, which need not belong to the catalog. -/
def download (c : Catalog) (url : String) : Act FetchError ByteArray := do
  ensureOnline s!"download {url}"
  let (_, bytes) ← c.send url none
  return bytes

def fetchPart (c : Catalog) (id : PartId) : Act FetchError Json := do
  Act.log .info s!"Fetching part {id.text} from the catalog"
  let response ← c.getSegments ["v1", "parts", id.text]
  Act.ofExcept response.json

def fetchRelease (c : Catalog) (name version : String) : Act FetchError PackageRelease := do
  let response ← c.getSegments ["v1", "packages", name, "releases", version]
  Act.ofExcept response.release

end Catalog

end PartDepot
