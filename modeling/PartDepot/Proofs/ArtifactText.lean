import PartDepot.Artifact
import PartDepot.Proofs.LockText
import PartDepot.Proofs.Numbers
import PartDepot.Proofs.Payloads
import PartDepot.Proofs.Times

/-!
# Cache entries read back

What a cache entry says is the artifact that was written.  Its payload may be any value that a
reader of JSON returns: each scalar of it is written so that it stands for itself, and it
nests less deep than a document may.
-/

namespace PartDepot

namespace Yaml

/-! ## Payloads as trees -/

theorem readable_word {c : Char} {cs : List Char} (hc : c.isAlphanum = true)
    (hcs : (c :: cs).all isUnquoted = true) : (Tree.plain (String.ofList (c :: cs))).Readable :=
  ⟨c, cs, String.toList_ofList, standsPlain_of_isUnquoted (List.all_eq_true.mp hcs) (.inl hc)⟩

mutual

/-- Every JSON value is written as a tree that can be read. -/
theorem readable_ofJson : ∀ v : Json, (Tree.ofJson v).Readable
  | .null => readable_word (by decide) (show ['n', 'u', 'l', 'l'].all isUnquoted = true by decide)
  | .bool true =>
      readable_word (by decide) (show ['t', 'r', 'u', 'e'].all isUnquoted = true by decide)
  | .bool false =>
      readable_word (by decide) (show ['f', 'a', 'l', 's', 'e'].all isUnquoted = true by decide)
  | .number n => standsPlain_renderNumber n
  | .string _ => trivial
  | .array items => readable_ofItems items
  | .object fields => readable_ofFields fields

theorem readable_ofItems : ∀ items : List Json, ReadableItems (Tree.ofItems items)
  | [] => trivial
  | v :: rest => ⟨readable_ofJson v, readable_ofItems rest⟩

theorem readable_ofFields : ∀ fields : List (String × Json), ReadableEntries (Tree.ofFields fields)
  | [] => trivial
  | (_, v) :: rest => ⟨readable_ofJson v, readable_ofFields rest⟩

end

/-! ## Payloads as nodes -/

namespace Decode

variable (table : Nat → Option Node) (jumps : Nat)

/-- The members of a mapping that was written, under their keys. -/
theorem members_mapping (depth : Nat) (entries : List (String × Tree)) :
    members (depth + 1) (Tree.mapping entries).node table jumps =
      some (entries.map fun entry => (entry.1, entry.2.node), jumps) := by
  have hmembers : members (depth + 1) (Tree.mapping entries).node table jumps =
      (entryNodes entries).mapM
        (fun entry => (do return (← text entry.1, entry.2) : Decode (String × Node)))
        table jumps := rfl
  rw [hmembers]
  clear hmembers
  induction entries with
  | nil => rfl
  | cons entry rest ih =>
      rw [entryNodes, mapM_cons, bind_apply, text_scalar, Option.bind_some]
      simp only [pure_apply, Option.bind_some, ih]
      rfl

/-- A field of a record that was written once. -/
theorem required_mapping {α : Type} {key : String} {entries : List (String × Tree)} {value : Tree}
    (hentries : entries.filter (·.1 == key) = [(key, value)]) (item : Node → Decode α) :
    required key item (entries.map fun entry => (entry.1, entry.2.node)) = item value.node := by
  have hfields : (entries.map fun entry => (entry.1, entry.2.node)).filter (·.1 == key) =
      [(key, value.node)] := by
    rw [List.filter_map]
    exact congrArg (List.map fun entry => (entry.1, entry.2.node)) hentries
  rw [required, field?, hfields]
  rfl

theorem json_scalar (depth : Nat) (plain : Bool) (s : String) :
    json depth (.scalar {} plain s) table jumps =
      (ofScalar none plain s).map fun v => (v, jumps) := by
  cases depth <;> rfl

theorem json_plain {s : String} {r : Resolved} (hs : resolve s = r) (depth : Nat) {v : Json}
    (hv : ofResolved s r = some v) :
    json depth (Tree.plain s).node table jumps = some (v, jumps) := by
  rw [Tree.node, json_scalar, ofScalar, if_pos rfl, hs, hv]
  rfl

/-- A text stands for itself, also one that would stand for something else without its quotes. -/
theorem json_text (depth : Nat) (s : String) :
    json depth (Tree.text s).node table jumps = some (.string s, jumps) := by
  rw [Tree.node, json_scalar, ofScalar]
  cases hform : form s == .plain with
  | false => rfl
  | true =>
      rw [if_pos rfl, (form_plain (beq_iff_eq.mp hform)).1]
      rfl

/-- A member of a mapping that a JSON object is written as. -/
def jsonEntry (depth : Nat) (entry : Node × Node) : Decode (String × Json) := do
  return (← text entry.1, ← json depth entry.2)

theorem json_mapping (depth : Nat) (entries : List (Node × Node)) :
    json (depth + 1) (.mapping {} entries) table jumps =
      (entries.mapM (jsonEntry depth) table jumps).bind fun r => some (Json.ofFields r.1, r.2) :=
  rfl

theorem json_sequence (depth : Nat) (nodes : List Node) :
    json (depth + 1) (.sequence {} nodes) table jumps =
      (nodes.mapM (json depth) table jumps).bind fun r => some (.array r.1, r.2) :=
  rfl

mutual

/-- The node that a value is written as is read as that value. -/
theorem json_ofJson : ∀ (v : Json) {depth : Nat}, Json.Fits depth v →
    json depth (Tree.ofJson v).node table jumps = some (v, jumps)
  | .null, depth, _ => json_plain table jumps (r := .null) (by decide) depth rfl
  | .bool true, depth, _ => json_plain table jumps (r := .bool true) (by decide) depth rfl
  | .bool false, depth, _ => json_plain table jumps (r := .bool false) (by decide) depth rfl
  | .number (.whole _), depth, h => json_plain table jumps (resolve_toString h) depth rfl
  | .number (.float x), depth, _ => json_plain table jumps (resolve_render x) depth rfl
  | .string s, depth, _ => json_text table jumps depth s
  | .array items, depth + 1, h => by
      have hitems := json_ofItems items h
      rw [Tree.ofJson, Tree.node, json_sequence, hitems]
      rfl
  | .object fields, depth + 1, h => by
      have hfields := json_ofFields fields h.2
      rw [Tree.ofJson, Tree.node, json_mapping, hfields, Option.bind_some, Json.ofFields,
        h.1.sortFields_eq]

theorem json_ofItems : ∀ (items : List Json) {depth : Nat}, Json.FitItems depth items →
    (itemNodes (Tree.ofItems items)).mapM (json depth) table jumps = some (items, jumps)
  | [], _, _ => rfl
  | v :: rest, depth, h => by
      rw [Tree.ofItems, itemNodes, mapM_cons, json_ofJson v h.1, Option.bind_some,
        json_ofItems rest h.2]
      rfl

theorem json_ofFields :
    ∀ (fields : List (String × Json)) {depth : Nat}, Json.FitFields depth fields →
    (entryNodes (Tree.ofFields fields)).mapM (jsonEntry depth) table jumps = some (fields, jumps)
  | [], _, _ => rfl
  | (key, v) :: rest, depth, h => by
      have hread (node : Node) :
          jsonEntry depth (.scalar {} (form key == .plain) key, node) table jumps =
          (json depth node table jumps).bind fun r => some ((key, r.1), r.2) := rfl
      rw [Tree.ofFields, entryNodes, mapM_cons, hread, json_ofJson v h.1, Option.bind_some,
        Option.bind_some, json_ofFields rest h.2]
      rfl

end

end Decode

end Yaml

/-! ## Artifacts -/

namespace CachedArtifact

theorem decode_members (id time : String) (payload : Yaml.Tree) (depth : Nat)
    (table : Nat → Option Yaml.Node) (jumps : Nat) :
    decode (depth + 1) (Yaml.Tree.mapping [("part_id", .text id), ("fetched_at", .text time),
      ("payload", payload)]).node table jumps =
        (Yaml.Decode.json depth payload.node table jumps).bind fun r =>
          (Yaml.Decode.ofOption (PartId.parse id).toOption table r.2).bind fun partId =>
            (Yaml.Decode.ofOption (Timestamp.parse time) table partId.2).bind fun fetchedAt =>
              some (⟨partId.1, fetchedAt.1, r.1⟩, fetchedAt.2) := by
  obtain ⟨entries, hentries⟩ : ∃ entries : List (String × Yaml.Tree), entries =
      [("part_id", .text id), ("fetched_at", .text time), ("payload", payload)] := ⟨_, rfl⟩
  have hid : entries.filter (·.1 == "part_id") = [("part_id", .text id)] := by simp [hentries]
  have htime : entries.filter (·.1 == "fetched_at") = [("fetched_at", .text time)] := by
    simp [hentries]
  have hpayload : entries.filter (·.1 == "payload") = [("payload", payload)] := by simp [hentries]
  rw [← hentries, decode, Yaml.Decode.bind_apply, Yaml.Decode.members_mapping, Option.bind_some]
  simp only [Yaml.Decode.required_mapping hid, Yaml.Decode.required_mapping htime,
    Yaml.Decode.required_mapping hpayload, Yaml.Decode.bind_apply, Yaml.Decode.pure_apply,
    Yaml.Decode.text_text, Option.bind_some, Nat.add_sub_cancel]

/-- A cache entry says what the artifact said that was written. -/
theorem parse_render {a : CachedArtifact} (htime : a.fetchedAt.Valid)
    (hpayload : Json.Fits Json.defaultDepth a.payload) : parse a.render = some a := by
  obtain ⟨id, time, payload⟩ := a
  have hroot : Yaml.parse (render ⟨id, time, payload⟩) =
      some (Yaml.Tree.mapping [("part_id", .text id.text), ("fetched_at", .text time.zulu),
        ("payload", Yaml.Tree.ofJson payload)]).node :=
    Yaml.parse_renderDocument (by simp) ⟨trivial, trivial, Yaml.readable_ofJson payload, trivial⟩
  refine Yaml.Decode.run_eq_some hroot fun table jumps => ?_
  rw [show Yaml.maxDepth = Json.defaultDepth + 1 from rfl, decode_members,
    Yaml.Decode.json_ofJson _ _ payload hpayload, Option.bind_some, PartId.parse_text,
    Timestamp.parse_zulu htime]
  rfl

end CachedArtifact

end PartDepot
