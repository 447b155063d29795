import Mathlib.Data.String.Basic
import PartDepot.Json.Reader

/-!
# Values that are read from JSON

A reader of JSON returns values of one kind only: they nest as deep as was allowed at most, their
whole numbers have up to 64 bits, and their objects hold each key once, in order.
-/

namespace PartDepot.Json

/-! ## Fields in order -/

section Fields

variable {α : Type} {key : String} {value : α} {fields : List (String × α)}

/-- Fields in key order, with every key once. -/
def Sorted (fields : List (String × α)) : Prop := fields.Pairwise fun a b => a.1 < b.1

theorem mem_insertField {f : String × α} (hf : f ∈ insertField key value fields) :
    f = (key, value) ∨ f ∈ fields := by
  induction fields with
  | nil => simpa [insertField] using hf
  | cons g rest ih =>
      rw [insertField] at hf
      split at hf
      · simpa using hf
      · split at hf
        · exact (List.mem_cons.mp hf).imp_right (List.mem_cons_of_mem g)
        · rcases List.mem_cons.mp hf with rfl | hf
          · exact .inr List.mem_cons_self
          · exact (ih hf).imp_right (List.mem_cons_of_mem g)

theorem Sorted.insertField (h : Sorted fields) : Sorted (insertField key value fields) := by
  induction fields with
  | nil => exact List.pairwise_singleton ..
  | cons g rest ih =>
      obtain ⟨hg, hrest⟩ := List.pairwise_cons.mp h
      rw [Json.insertField]
      split
      · next hlt =>
        refine List.pairwise_cons.mpr ⟨fun f hf => ?_, h⟩
        rcases List.mem_cons.mp hf with rfl | hf
        · exact hlt
        · exact hlt.trans (hg f hf)
      · next hle =>
        split
        · next heq => exact List.pairwise_cons.mpr ⟨fun f hf => heq ▸ hg f hf, hrest⟩
        · next hne =>
          refine List.pairwise_cons.mpr ⟨fun f hf => ?_, ih hrest⟩
          rcases mem_insertField hf with rfl | hf
          · exact (not_lt.mp hle).lt_of_ne (Ne.symm hne)
          · exact hg f hf

theorem insertField_last (hlast : ∀ f ∈ fields, f.1 < key) :
    insertField key value fields = fields ++ [(key, value)] := by
  induction fields with
  | nil => rfl
  | cons g rest ih =>
      have hlt : g.1 < key := hlast g List.mem_cons_self
      rw [insertField, if_neg hlt.not_gt, if_neg hlt.ne',
        ih fun f hf => hlast f (List.mem_cons_of_mem g hf)]
      rfl

theorem sorted_sortFields (fields : List (String × α)) : Sorted (sortFields fields) :=
  List.foldlRecOn fields _ List.Pairwise.nil fun _ h _ _ => h.insertField

theorem mem_sortFields {f : String × α} (hf : f ∈ sortFields fields) : f ∈ fields := by
  have hall : ∀ f ∈ sortFields fields, f ∈ fields :=
    List.foldlRecOn (motive := fun sorted => ∀ f ∈ sorted, f ∈ fields) fields _ (by simp)
      fun sorted h g hg f hf => by
        rcases mem_insertField hf with rfl | hf
        · exact hg
        · exact h f hf
  exact hall f hf

/-- Fields in order stay as they are. -/
theorem Sorted.sortFields_eq (h : Sorted fields) : sortFields fields = fields := by
  suffices hgeneral : ∀ front, Sorted (front ++ fields) →
      fields.foldl (fun sorted f => Json.insertField f.1 f.2 sorted) front = front ++ fields from
    hgeneral [] h
  clear h
  induction fields with
  | nil => simp
  | cons g rest ih =>
      intro front h
      have hlast := (List.pairwise_append.mp h).2.2
      rw [List.foldl_cons, insertField_last fun f hf => hlast f hf g List.mem_cons_self,
        ih _ (by simpa using h), List.append_assoc, List.singleton_append]

end Fields

/-! ## Values -/

mutual

theorem eq_iff : ∀ a b : Json, eq a b = true ↔ a = b
  | .null, b => by cases b <;> simp [eq]
  | .bool _, b => by cases b <;> simp [eq]
  | .number _, b => by cases b <;> simp [eq]
  | .string _, b => by cases b <;> simp [eq]
  | .array items, b => by
      cases b with
      | array others => simp [eq, eqItems_iff items others]
      | _ => simp [eq]
  | .object fields, b => by
      cases b with
      | object others => simp [eq, eqFields_iff fields others]
      | _ => simp [eq]

theorem eqItems_iff : ∀ as bs : List Json, eqItems as bs = true ↔ as = bs
  | [], bs => by cases bs <;> simp [eqItems]
  | a :: as, [] => by simp [eqItems]
  | a :: as, b :: bs => by simp [eqItems, eq_iff a b, eqItems_iff as bs]

theorem eqFields_iff : ∀ as bs : List (String × Json), eqFields as bs = true ↔ as = bs
  | [], bs => by cases bs <;> simp [eqFields]
  | (k, a) :: as, [] => by simp [eqFields]
  | (k, a) :: as, (l, b) :: bs => by simp [eqFields, eq_iff a b, eqFields_iff as bs, and_assoc]

end

instance : DecidableEq Json := fun a b => decidable_of_iff _ (eq_iff a b)

/-- A number as the format has it: whole numbers have up to 64 bits. -/
def ExactNumber : JsonNumber → Prop
  | .whole n => Exact n
  | .float _ => True

mutual

/-- A value that nests at most `depth` deep, with exact numbers and with fields in order. -/
def Fits : Nat → Json → Prop
  | _, .null => True
  | _, .bool _ => True
  | _, .number n => ExactNumber n
  | _, .string _ => True
  | 0, .array _ => False
  | 0, .object _ => False
  | depth + 1, .array items => FitItems depth items
  | depth + 1, .object fields => Sorted fields ∧ FitFields depth fields

def FitItems : Nat → List Json → Prop
  | _, [] => True
  | depth, v :: rest => Fits depth v ∧ FitItems depth rest

def FitFields : Nat → List (String × Json) → Prop
  | _, [] => True
  | depth, (_, v) :: rest => Fits depth v ∧ FitFields depth rest

end

theorem fitFields_iff {depth : Nat} {fields : List (String × Json)} :
    FitFields depth fields ↔ ∀ f ∈ fields, Fits depth f.2 := by
  induction fields with
  | nil => simp [FitFields]
  | cons f rest ih => simp [FitFields, ih]

/-- The fields of an object in the order of the text make an object with its fields in order. -/
theorem fits_ofFields {depth : Nat} {fields : List (String × Json)} (h : FitFields depth fields) :
    Fits (depth + 1) (ofFields fields) :=
  ⟨sorted_sortFields fields, fitFields_iff.mpr fun f hf => fitFields_iff.mp h f (mem_sortFields hf)⟩

/-! ## Numbers -/

theorem readWhole_le (value : Nat) (s : List Char) (hvalue : value ≤ 0xFFFF_FFFF_FFFF_FFFF) :
    (readWhole value s).1 ≤ 0xFFFF_FFFF_FFFF_FFFF := by
  induction s generalizing value with
  | nil => exact hvalue
  | cons c rest ih =>
      rw [readWhole]
      cases digitOf? c with
      | none => exact hvalue
      | some d =>
          dsimp only
          split
          · exact hvalue
          · exact ih _ (by omega)

theorem exact_wholeNumber {negative : Bool} {n : Nat} {number : JsonNumber}
    (hn : n ≤ 0xFFFF_FFFF_FFFF_FFFF) (h : wholeNumber negative n = some number) :
    ExactNumber number := by
  rw [wholeNumber] at h
  split at h
  · cases h
    exact ⟨by omega, by omega⟩
  · split at h
    · obtain ⟨x, -, rfl⟩ := Option.map_eq_some_iff.mp h
      trivial
    · next hsmall =>
      simp only [Bool.or_eq_true, beq_iff_eq, decide_eq_true_eq, not_or] at hsmall
      cases h
      exact ⟨by omega, by omega⟩

/-- A number with a point or an exponent is a double. -/
theorem exact_float {read : Option (Option Binary64 × List Char)} {rest : List Char}
    {number : JsonNumber}
    (h : read.map (fun r => (r.1.map JsonNumber.float, r.2)) = some (some number, rest)) :
    ExactNumber number := by
  obtain ⟨⟨x, after⟩, -, heq⟩ := Option.map_eq_some_iff.mp h
  obtain ⟨x, -, rfl⟩ := Option.map_eq_some_iff.mp (Prod.mk.inj heq).1
  trivial

/-- A number without a point ends with its digits; with too many of them it is a double. -/
theorem exact_whole {negative : Bool} {value dropped : Nat} {after rest : List Char}
    {number : JsonNumber} (hvalue : value ≤ 0xFFFF_FFFF_FFFF_FFFF)
    (h : (if dropped = 0 then some (wholeNumber negative value, after)
      else some ((scaleDecimal negative value dropped).map .float, after)) =
        some (some number, rest)) :
    ExactNumber number := by
  split at h
  · exact exact_wholeNumber hvalue (Prod.mk.inj (Option.some.inj h)).1
  · obtain ⟨x, -, rfl⟩ := Option.map_eq_some_iff.mp (Prod.mk.inj (Option.some.inj h)).1
    trivial

theorem exact_readUnsigned {negative : Bool} {s rest : List Char} {number : JsonNumber}
    (h : readUnsigned negative s = some (some number, rest)) : ExactNumber number := by
  cases s with
  | nil => cases h
  | cons c cs =>
      rw [readUnsigned] at h
      have hvalue : (if c = '0' then (0, 0, cs) else readWhole 0 (c :: cs)).1 ≤
          0xFFFF_FFFF_FFFF_FFFF := by
        split
        · exact Nat.zero_le _
        · exact readWhole_le 0 (c :: cs) (Nat.zero_le _)
      rcases hwhole : (if c = '0' then (0, 0, cs) else readWhole 0 (c :: cs)) with
        ⟨value, dropped, after⟩
      rw [hwhole] at hvalue
      rw [hwhole] at h
      dsimp only at h
      split at h
      · cases h
      · split at h
        · exact exact_float h
        · exact exact_float h
        · exact exact_float h
        · split at h
          · cases h
          · exact exact_whole hvalue h
        · exact exact_whole hvalue h

theorem exact_parsed {parsed : Option (Option JsonNumber × List Char)} {rest : List Char} {v : Json}
    (h : (match parsed, Care.keep with
      | some (some n, rest), _ => some (.number n, rest)
      | some (none, rest), .skip => some (.null, rest)
      | _, _ => none) = some (v, rest))
    (hparsed : ∀ number, parsed = some (some number, rest) → ExactNumber number) :
    ∃ number, v = .number number ∧ ExactNumber number := by
  split at h
  · cases h
    exact ⟨_, rfl, hparsed _ rfl⟩
  · next hcare => cases hcare
  · cases h

theorem readNumber_keep {s rest : List Char} {v : Json} (h : readNumber .keep s = some (v, rest)) :
    ∃ number, v = .number number ∧ ExactNumber number := by
  unfold readNumber at h
  split at h
  · exact exact_parsed h fun _ => exact_readUnsigned
  · exact exact_parsed h fun _ => exact_readUnsigned

/-! ## Reading -/

/-- What each reader returns with some fuel. -/
structure Reads (fuel : Nat) : Prop where
  value {depth : Nat} {s rest : List Char} {v : Json} :
    readValue .keep fuel depth s = some (v, rest) → Fits depth v
  items {depth : Nat} {s rest : List Char} {items : List Json} :
    readItems .keep fuel depth s = some (items, rest) → FitItems depth items
  fields {depth : Nat} {s rest : List Char} {fields : List (String × Json)} :
    readFields .keep fuel depth s = some (fields, rest) → FitFields depth fields

namespace Reads

variable {fuel depth : Nat} {s rest : List Char} (ih : Reads fuel)

include ih

theorem value_succ {v : Json} (h : readValue .keep (fuel + 1) depth s = some (v, rest)) :
    Fits depth v := by
  unfold readValue at h
  split at h
  · cases h
    trivial
  · cases h
    trivial
  · cases h
    trivial
  · obtain ⟨⟨text, after⟩, -, heq⟩ := Option.map_eq_some_iff.mp h
    cases heq
    trivial
  · cases depth with
    | zero => cases h
    | succ depth =>
        rw [enter, Option.bind_eq_bind, Option.bind_some] at h
        split at h
        · cases h
          trivial
        · obtain ⟨⟨items, after⟩, hitems, heq⟩ := Option.bind_eq_some_iff.mp h
          cases heq
          exact ih.items hitems
  · cases depth with
    | zero => cases h
    | succ depth =>
        rw [enter, Option.bind_eq_bind, Option.bind_some] at h
        split at h
        · cases h
          exact ⟨List.Pairwise.nil, trivial⟩
        · obtain ⟨⟨fields, after⟩, hfields, heq⟩ := Option.bind_eq_some_iff.mp h
          cases heq
          exact fits_ofFields (ih.fields hfields)
  · obtain ⟨number, rfl, hexact⟩ := readNumber_keep h
    exact hexact

theorem items_succ {items : List Json}
    (h : readItems .keep (fuel + 1) depth s = some (items, rest)) :
    FitItems depth items := by
  rw [readItems] at h
  obtain ⟨⟨item, after⟩, hitem, h⟩ := Option.bind_eq_some_iff.mp h
  dsimp only at h
  split at h
  · cases h
    exact ⟨ih.value hitem, trivial⟩
  · obtain ⟨⟨others, last⟩, hothers, heq⟩ := Option.bind_eq_some_iff.mp h
    cases heq
    exact ⟨ih.value hitem, ih.items hothers⟩
  · cases h

theorem fields_succ {fields : List (String × Json)}
    (h : readFields .keep (fuel + 1) depth s = some (fields, rest)) : FitFields depth fields := by
  rw [readFields] at h
  split at h
  · obtain ⟨⟨key, after⟩, -, h⟩ := Option.bind_eq_some_iff.mp h
    dsimp only at h
    split at h
    · obtain ⟨⟨value, last⟩, hvalue, h⟩ := Option.bind_eq_some_iff.mp h
      dsimp only at h
      split at h
      · cases h
        exact ⟨ih.value hvalue, trivial⟩
      · obtain ⟨⟨others, last⟩, hothers, heq⟩ := Option.bind_eq_some_iff.mp h
        cases heq
        exact ⟨ih.value hvalue, ih.fields hothers⟩
      · cases h
    · cases h
  · cases h

end Reads

theorem reads (fuel : Nat) : Reads fuel := by
  induction fuel with
  | zero =>
      constructor <;>
      · intros
        simp_all [readValue, readItems, readFields]
  | succ fuel ih => exact ⟨ih.value_succ, ih.items_succ, ih.fields_succ⟩

/-- What a text is read as nests at most as deep as the reader goes. -/
theorem fits_of_parse {text : String} {v : Json} (h : parse text = some v) :
    Fits defaultDepth v := by
  rw [parse, parseUpTo] at h
  split at h
  · next value rest hvalue =>
    split at h
    · cases h
      exact (reads _).value hvalue
    · cases h
  · cases h

end PartDepot.Json
