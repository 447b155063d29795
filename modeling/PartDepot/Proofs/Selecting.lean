import Mathlib.Data.List.Basic
import Mathlib.Data.List.Forall2
import PartDepot.Manifest
import PartDepot.Proofs.LockText
import PartDepot.Proofs.Payloads

/-!
# What a selection comes to

Without a design address every selector has to name a build: the first one that does not is refused,
and otherwise there is one target for each, in their order.  With a design address the selectors are
not looked at, so one that names no build goes unnoticed.
-/

namespace PartDepot

namespace EntryPoint

/-- A design address is a design file, a colon, and a name without a colon. -/
theorem parse_eq_address_iff {entry : String} {file : Path} {module : String} :
    parse entry = .address file module ↔
      entry.toList = file.text.toList ++ ':' :: module.toList ∧ ':' ∉ module.toList ∧
        module.toList ≠ [] ∧ designSuffix <:+ file.text.toList := by
  have hsuffix (front : List Char) :
      designSuffix.reverse.isPrefixOf front = true ↔ designSuffix <:+ front.reverse := by
    rw [List.isPrefixOf_iff_prefix, ← List.reverse_suffix, List.reverse_reverse]
  constructor
  · intro h
    have hentry := List.takeWhile_append_dropWhile (p := (· != ':')) (l := entry.toList.reverse)
    have hplain := List.all_takeWhile (p := (· != ':')) (l := entry.toList.reverse)
    unfold parse at h
    dsimp only at h
    generalize entry.toList.reverse.takeWhile (· != ':') = back at h hentry hplain
    split at h
    · simp at h
    · next c front hrest =>
      have hcolon : c = ':' := by
        have hhead := List.head?_dropWhile_not (· != ':') entry.toList.reverse
        simpa [hrest] using hhead
      split at h
      · next hcheck =>
        obtain ⟨rfl, rfl⟩ := EntryPoint.address.inj h
        rw [Bool.and_eq_true, hsuffix] at hcheck
        rw [hrest, hcolon] at hentry
        refine ⟨?_, ?_, ?_, ?_⟩
        · rw [← List.reverse_inj, ← hentry]
          simp
        · intro hmem
          have hne := List.all_eq_true.mp hplain ':' (by simpa using hmem)
          simp at hne
        · simpa using hcheck.2
        · simpa using hcheck.1
      · simp at h
  · rintro ⟨hentry, hplain, hmodule, hfile⟩
    have hreverse : entry.toList.reverse = module.toList.reverse ++ ':' ::
        file.text.toList.reverse := by
      rw [hentry]
      simp
    have hnone : ∀ c ∈ module.toList.reverse, (c != ':') = true := by
      intro c hc
      simpa using ne_of_mem_of_not_mem (List.mem_reverse.mp hc) hplain
    have hcheck : (designSuffix.reverse.isPrefixOf file.text.toList.reverse &&
        !module.toList.isEmpty) = true := by
      rw [Bool.and_eq_true, hsuffix, List.reverse_reverse]
      exact ⟨hfile, by simpa using hmodule⟩
    unfold parse
    dsimp only
    rw [hreverse, List.takeWhile_append_of_pos hnone, List.dropWhile_append_of_pos hnone]
    simp [hcheck]

end EntryPoint

namespace Yaml.Decode

variable {α β : Type} {table : Nat → Option Node} {jumps left : Nat}

theorem bind_eq_some {d : Decode α} {f : α → Decode β} {b : β}
    (h : (d >>= f) table jumps = some (b, left)) :
    ∃ a jumps', d table jumps = some (a, jumps') ∧ f a table jumps' = some (b, left) := by
  rw [bind_apply] at h
  obtain ⟨⟨a, jumps'⟩, hd, hf⟩ := Option.bind_eq_some_iff.mp h
  exact ⟨a, jumps', hd, hf⟩

theorem withDefault_eq_some {key : String} {default : α} {item : Node → Decode α}
    {fields : List (String × Node)} {a : α}
    (h : withDefault key default item fields table jumps = some (a, left)) :
    a = default ∨ ∃ n jumps', item n table jumps' = some (a, left) := by
  unfold withDefault at h
  obtain ⟨found, jumps', -, h⟩ := bind_eq_some h
  cases found with
  | none => exact .inl (Prod.mk.inj (Option.some.inj h)).1.symm
  | some n => exact .inr ⟨n, jumps', h⟩

theorem sorted_table {depth : Nat} {item : Nat → Node → Decode α} {n : Node}
    {fields : List (String × α)} (h : Decode.table depth item n table jumps = some (fields, left)) :
    Json.Sorted fields := by
  unfold Decode.table at h
  obtain ⟨members, jumps', -, h⟩ := bind_eq_some h
  obtain ⟨entries, jumps'', -, h⟩ := bind_eq_some h
  obtain ⟨rfl, -⟩ := Prod.mk.inj (Option.some.inj h)
  exact Json.sorted_sortFields entries

end Yaml.Decode

namespace Manifest

variable {m : Manifest} {entry : Option String} {selected : List String}

def names (m : Manifest) : List String := m.builds.map (·.1)

/-- Builds in the order of their names, with every name once. -/
def Ordered (m : Manifest) : Prop := Json.Sorted m.builds

theorem ordered_of_parse {text : String} {path : Path} (h : parse text path = .ok m) :
    m.Ordered := by
  unfold parse at h
  split at h
  · simp at h
  · next m' hrun =>
    split at h
    · simp at h
    obtain rfl := Except.ok.inj h
    unfold Yaml.Decode.run at hrun
    obtain ⟨root, -, hroot⟩ := Option.bind_eq_some_iff.mp hrun
    obtain ⟨⟨m'', left⟩, hdecode, hm⟩ := Option.bind_eq_some_iff.mp hroot
    obtain rfl := Option.some.inj hm
    unfold decode at hdecode
    obtain ⟨fields, left₁, -, hdecode⟩ := Yaml.Decode.bind_eq_some hdecode
    obtain ⟨name, left₂, -, hdecode⟩ := Yaml.Decode.bind_eq_some hdecode
    obtain ⟨builds, left₃, hbuilds, hdecode⟩ := Yaml.Decode.bind_eq_some hdecode
    obtain ⟨dependencies, left₄, -, hdecode⟩ := Yaml.Decode.bind_eq_some hdecode
    obtain ⟨rfl, -⟩ := Prod.mk.inj (Option.some.inj hdecode)
    rcases Yaml.Decode.withDefault_eq_some hbuilds with rfl | ⟨n, jumps, hn⟩
    · exact .nil
    · exact Yaml.Decode.sorted_table hn

theorem Ordered.build?_eq_some_iff (h : m.Ordered) {name : String} {b : BuildConfig} :
    m.build? name = some b ↔ (name, b) ∈ m.builds := by
  unfold build?
  have hsorted : Json.Sorted m.builds := h
  generalize m.builds = builds at hsorted
  induction builds with
  | nil => simp
  | cons first rest ih =>
      obtain ⟨hfirst, hrest⟩ := List.pairwise_cons.mp hsorted
      obtain ⟨name', b'⟩ := first
      rw [List.lookup_cons, List.mem_cons]
      by_cases hname : name = name'
      · subst hname
        have hlater : (name, b) ∉ rest := fun hmem => absurd (hfirst _ hmem) (lt_irrefl name)
        simp [hlater, eq_comm]
      · have hbeq : (name == name') = false := by simpa using hname
        simp [hbeq, hname, ih hrest]

theorem build?_isSome_iff {name : String} : (m.build? name).isSome ↔ name ∈ m.names := by
  unfold build? names
  rw [← Option.ne_none_iff_isSome, ne_eq, List.lookup_eq_none_iff, List.mem_map]
  constructor
  · intro hsome
    obtain ⟨b, hb, hname⟩ := not_forall₂.mp hsome
    rw [bne_iff_ne, not_ne_iff] at hname
    exact ⟨b, hb, hname.symm⟩
  · rintro ⟨b, hb, rfl⟩ hnone
    simpa using hnone b hb

/-! ## Selectors -/

theorem selectOne_of_mem {name : String} (h : name ∈ m.names) :
    ∃ b, m.build? name = some b ∧ m.selectOne name = .ok (target name b) := by
  obtain ⟨b, hb⟩ := Option.isSome_iff_exists.mp (build?_isSome_iff.mpr h)
  exact ⟨b, hb, by rw [selectOne, hb]⟩

theorem selectOne_of_not_mem {name : String} (h : name ∉ m.names) :
    m.selectOne name = .error (.unknownBuild name (", ".intercalate m.names)) := by
  have hnone : m.build? name = none := by
    rw [← Option.not_isSome_iff_eq_none, build?_isSome_iff]
    exact h
  rw [selectOne, hnone]
  rfl

/-- Each selector that names a build gives its target. -/
theorem selectAll_of_known (h : ∀ name ∈ selected, name ∈ m.names) :
    ∃ targets, selected.mapM m.selectOne = .ok targets ∧ List.Forall₂
      (fun name t => ∃ b, m.build? name = some b ∧ t = target name b) selected targets := by
  induction selected with
  | nil => exact ⟨[], rfl, .nil⟩
  | cons name rest ih =>
      obtain ⟨b, hb, hone⟩ := selectOne_of_mem (h name List.mem_cons_self)
      obtain ⟨targets, hall, heach⟩ := ih fun name hname => h name (List.mem_cons_of_mem _ hname)
      refine ⟨target name b :: targets, ?_, .cons ⟨b, hb, rfl⟩ heach⟩
      rw [List.mapM_cons, hone, hall]
      rfl

/-- The first selector that names no build is the one that is told of. -/
theorem selectAll_of_unknown {before after : List String} {name : String}
    (hbefore : ∀ other ∈ before, other ∈ m.names) (hname : name ∉ m.names) :
    (before ++ name :: after).mapM m.selectOne =
      .error (.unknownBuild name (", ".intercalate m.names)) := by
  induction before with
  | nil =>
      rw [List.nil_append, List.mapM_cons, selectOne_of_not_mem hname]
      rfl
  | cons other before ih =>
      obtain ⟨b, -, hone⟩ := selectOne_of_mem (hbefore other List.mem_cons_self)
      rw [List.cons_append, List.mapM_cons, hone,
        ih fun other hother => hbefore other (List.mem_cons_of_mem _ hother)]
      rfl

/-! ## Selections -/

theorem select_of_path (h : ∀ e ∈ entry, ∀ file module, EntryPoint.parse e ≠ .address file module) :
    m.select entry selected =
      if selected.isEmpty then .ok (m.builds.map fun (name, b) => target name b)
      else selected.mapM m.selectOne := by
  unfold select
  cases entry with
  | none => rfl
  | some e =>
      cases hparse : EntryPoint.parse e with
      | path p => simp [hparse]
      | address file module => exact absurd hparse (h e rfl file module)

/-- Without a design address selectors are never passed over: all builds are selected if there
are none, the first that names no build is refused with the names there are, and otherwise there
is one target for each in their order. -/
theorem select_by_name (hordered : m.Ordered)
    (h : ∀ e ∈ entry, ∀ file module, EntryPoint.parse e ≠ .address file module) :
    m.select entry [] = .ok (m.builds.map fun (name, b) => ⟨name, b.entry, b.parts⟩) ∧
    (∀ before name after, selected = before ++ name :: after → (∀ other ∈ before, other ∈ m.names) →
      name ∉ m.names →
      m.select entry selected = .error (.unknownBuild name (", ".intercalate m.names))) ∧
    (selected ≠ [] → (∀ name ∈ selected, name ∈ m.names) →
      ∃ targets, m.select entry selected = .ok targets ∧
        List.Forall₂ (fun name t => ∃ b, (name, b) ∈ m.builds ∧ t = ⟨name, b.entry, b.parts⟩)
          selected targets) := by
  refine ⟨?_, ?_, fun hne hknown => ?_⟩
  · rw [select_of_path h]
    rfl
  · rintro before name after rfl hbefore hname
    rw [select_of_path h, if_neg (by simp), selectAll_of_unknown hbefore hname]
  · obtain ⟨targets, hall, heach⟩ := selectAll_of_known hknown
    refine ⟨targets, by rw [select_of_path h, if_neg (by simpa using hne), hall], heach.imp ?_⟩
    rintro name t ⟨b, hb, rfl⟩
    exact ⟨b, hordered.build?_eq_some_iff.mp hb, rfl⟩

/-- With a design address there is exactly its own target, with the parts of the default build.  The
selectors are not looked at, whatever they name. -/
theorem select_by_address {e : String} {file : Path} {module : String}
    (h : EntryPoint.parse e = .address file module) (selected : List String) :
    m.select (some e) selected =
      .ok [⟨module, some e, ((m.build? defaultBuild).map (·.parts)).getD []⟩] := by
  unfold select
  rw [Option.map_some, h]
  rfl

/-- A selector that is refused for naming no build is passed over behind a design address. -/
theorem select_passes_over_unknown {e : String} {file : Path} {module : String}
    (h : EntryPoint.parse e = .address file module) {name : String} (hname : name ∉ m.names) :
    m.select none [name] = .error (.unknownBuild name (", ".intercalate m.names)) ∧
      m.select (some e) [name] = m.select (some e) [] := by
  constructor
  · rw [select_of_path (by simp), if_neg (by simp)]
    exact @selectAll_of_unknown _ [] [] name (by simp) hname
  · rw [select_by_address h, select_by_address h]

end Manifest

end PartDepot
