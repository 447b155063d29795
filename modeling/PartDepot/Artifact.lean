import PartDepot.PartId
import PartDepot.Time.Text
import PartDepot.Yaml.Decode
import PartDepot.Yaml.Writer

/-!
# Cached artifacts

What the catalog said about a part, with the time when it said so, and the text that a cache entry
holds of it.
-/

namespace PartDepot

structure CachedArtifact where
  partId : PartId
  fetchedAt : Timestamp
  payload : Json

namespace CachedArtifact

def render (a : CachedArtifact) : String :=
  Yaml.renderDocument
    [("part_id", .text a.partId.text),
     ("fetched_at", .text a.fetchedAt.zulu),
     ("payload", Yaml.Tree.ofJson a.payload)]

def decode (depth : Nat) (n : Yaml.Node) : Yaml.Decode CachedArtifact := do
  let fields ← Yaml.Decode.members depth n
  let id ← Yaml.Decode.required "part_id" Yaml.Decode.text fields
  let time ← Yaml.Decode.required "fetched_at" Yaml.Decode.text fields
  let payload ← Yaml.Decode.required "payload" (Yaml.Decode.json (depth - 1)) fields
  let partId ← Yaml.Decode.ofOption (PartId.parse id).toOption
  let fetchedAt ← Yaml.Decode.ofOption (Timestamp.parse time)
  return { partId, fetchedAt, payload }

def parse (text : String) : Option CachedArtifact := Yaml.Decode.run decode text

def toJson (a : CachedArtifact) : Json :=
  .object [("part_id", .string a.partId.text), ("fetched_at", .string a.fetchedAt.zulu),
    ("payload", a.payload)]

end CachedArtifact

abbrev Freshness := CachedArtifact → Bool

namespace Freshness

def never : Freshness := fun _ => false

def always : Freshness := fun _ => true

def marked (field : String) : Freshness := fun a => (a.payload.field? field).isSome

def before (t : Timestamp) : Freshness := fun a => a.fetchedAt.earlier t

end Freshness

end PartDepot
