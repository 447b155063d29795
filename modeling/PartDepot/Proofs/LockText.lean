import PartDepot.Lock
import PartDepot.Proofs.Documents

/-!
# Lock files read back

What a lock file says is the lock that was written, whatever texts its entries hold.
-/

namespace PartDepot

namespace Yaml.Decode

variable (table : Nat → Option Node) (jumps : Nat)

theorem pure_apply {α : Type} (a : α) : (pure a : Decode α) table jumps = some (a, jumps) := rfl

theorem bind_apply {α β : Type} (d : Decode α) (f : α → Decode β) :
    (d >>= f) table jumps = (d table jumps).bind fun r => f r.1 table r.2 := rfl

theorem mapM_cons {α β : Type} (f : α → Decode β) (a : α) (rest : List α) :
    (a :: rest).mapM f table jumps = (f a table jumps).bind fun r =>
      (rest.mapM f table r.2).bind fun rs => some (r.1 :: rs.1, rs.2) := by
  rw [List.mapM_cons]
  rfl

theorem text_scalar (p : Props) (plain : Bool) (s : String) :
    text (.scalar p plain s) table jumps = some (s, jumps) := rfl

theorem text_text (s : String) : text (Tree.text s).node table jumps = some (s, jumps) := rfl

theorem optionalText_text (s : String) :
    optionalText (Tree.text s).node table jumps = some (some s, jumps) := by
  cases hform : form s == .plain with
  | false =>
      rw [Tree.node, hform]
      rfl
  | true =>
      have hresolve := (form_plain (beq_iff_eq.mp hform)).1
      have hnull : (s.isEmpty || isNullWord s) = false := by
        rw [← Bool.not_eq_true]
        intro hnull
        rw [resolve, if_pos hnull] at hresolve
        cases hresolve
      have hread : optionalText (.scalar {} true s) table jumps =
          some (if s.isEmpty || isNullWord s then none else some s, jumps) := rfl
      rw [Tree.node, hform, hread,
        if_neg (by simp only [hnull, Bool.false_eq_true, not_false_eq_true])]

/-- A document that is read as a node has the value that the node has in any document. -/
theorem run_eq_some {α : Type} {d : Nat → Node → Decode α} {content : String} {root : Node} {a : α}
    (hroot : Yaml.parse content = some root)
    (hread : ∀ table jumps, d maxDepth root table jumps = some (a, jumps)) :
    run d content = some a := by
  have hrun : run d content = (Yaml.parse content).bind fun root =>
      (d maxDepth root (fun id => root.find id) (jumpsPerEvent * root.events)).bind
        fun r => some r.1 := rfl
  rw [hrun, hroot, Option.bind_some, hread]
  rfl

end Yaml.Decode

namespace Lock

theorem decodeEntry_entryTree (e : InstalledPackage) (depth : Nat) (table : Nat → Option Yaml.Node)
    (jumps : Nat) : decodeEntry (depth + 1) (entryTree e).node table jumps = some (e, jumps) := by
  obtain ⟨name, version, digest, time⟩ := e
  cases digest with
  | none => rfl
  | some digest =>
    have hread :
        decodeEntry (depth + 1) (entryTree ⟨name, version, some digest, time⟩).node table jumps =
        (Yaml.Decode.optionalText (Yaml.Tree.text digest).node table jumps).bind
          fun r => some (⟨name, version, r.1, time⟩, r.2) := rfl
    rw [hread, Yaml.Decode.optionalText_text]
    rfl

theorem decodeEntries (entries : List InstalledPackage) (depth : Nat)
    (table : Nat → Option Yaml.Node) (jumps : Nat) :
    (Yaml.itemNodes (entries.map entryTree)).mapM (decodeEntry (depth + 1)) table jumps =
      some (entries, jumps) := by
  induction entries with
  | nil => rfl
  | cons e rest ih =>
      rw [List.map_cons, Yaml.itemNodes, Yaml.Decode.mapM_cons, decodeEntry_entryTree,
        Option.bind_some, ih, Option.bind_some]

theorem standsPlain_null : Yaml.StandsPlain 'n' "ull".toList :=
  ⟨by decide, by decide, by decide, fun d hd => by
    have hall := List.all_eq_true.mp (show ('n' :: "ull".toList).all (fun d =>
      Yaml.isPrintable d && !Yaml.isBreak d) from by decide) d hd
    simpa using hall, by decide, by decide⟩

theorem readable_entryTree (e : InstalledPackage) : (entryTree e).Readable := by
  refine ⟨trivial, trivial, ?_, trivial, trivial⟩
  cases e.digest with
  | none => exact ⟨'n', _, rfl, standsPlain_null⟩
  | some digest => trivial

theorem readable_entries (entries : List InstalledPackage) :
    Yaml.ReadableItems (entries.map entryTree) := by
  induction entries with
  | nil => trivial
  | cons e rest ih => exact ⟨readable_entryTree e, ih⟩

/-- A lock file says what the lock said that was written: the same entries in the same order. -/
theorem parse_render (l : Lock) : parse l.render = some l := by
  obtain ⟨apiVersion, generated, installed⟩ := l
  have hroot : Yaml.parse (render ⟨apiVersion, generated, installed⟩) =
      some (Yaml.Tree.mapping [("apiVersion", .text apiVersion), ("generated", .text generated),
        ("installed", .list (installed.map entryTree))]).node :=
    Yaml.parse_renderDocument (by simp) ⟨trivial, trivial, readable_entries installed, trivial⟩
  refine Yaml.Decode.run_eq_some hroot fun table jumps => ?_
  have hdecode : decode Yaml.maxDepth (Yaml.Tree.mapping [("apiVersion", .text apiVersion),
      ("generated", .text generated), ("installed", .list (installed.map entryTree))]).node
        table jumps =
        ((Yaml.itemNodes (installed.map entryTree)).mapM (decodeEntry 126) table jumps).bind
          fun r => some (⟨apiVersion, generated, r.1⟩, r.2) := rfl
  rw [hdecode, decodeEntries]
  rfl

end Lock

end PartDepot
