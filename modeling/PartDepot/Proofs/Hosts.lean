import PartDepot.Proofs.Addresses
import PartDepot.Proofs.Bootstring
import PartDepot.Proofs.Escapes
import PartDepot.Url.Basic

/-!
# Hosts are kept as they are

The text that a host is kept as is read as the same host: folding has nothing to do in it, its
labels are in their ASCII form already, and addresses are in their usual one.
-/

namespace PartDepot.Host

/-! ## Folding -/

theorem toNat_ofNat {n : Nat} (h : n < 0xD800) : (Char.ofNat n).toNat = n := by
  rw [Char.ofNat, dif_pos (Or.inl h)]
  rfl

/-- The codes beyond ASCII that folding leaves alone. -/
def Folded (n : Nat) : Prop :=
  0x80 ≤ n ∧ n ≠ 0xAD ∧ n ≠ 0x3002 ∧ n ≠ 0xFF61 ∧ ¬(0xFF01 ≤ n ∧ n ≤ 0xFF5E)
    ∧ ¬(0xC0 ≤ n ∧ n ≤ 0xDE ∧ n ≠ 0xD7) ∧ ¬(0x391 ≤ n ∧ n ≤ 0x3AB ∧ n ≠ 0x3A2)
    ∧ ¬(0x400 ≤ n ∧ n ≤ 0x42F)
    ∧ ¬((0x100 ≤ n ∧ n ≤ 0x137 ∨ 0x14A ≤ n ∧ n ≤ 0x177 ∨ 0x460 ≤ n ∧ n ≤ 0x481
      ∨ 0x48A ≤ n ∧ n ≤ 0x4BF) ∧ n % 2 = 0 ∧ n ≠ 0x130)
    ∧ ¬((0x139 ≤ n ∧ n ≤ 0x148 ∨ 0x179 ≤ n ∧ n ≤ 0x17E) ∧ n % 2 = 1)

theorem foldChar_ascii {c : Char} (h : c.toNat < 0x80) : foldChar c = [c.toLower] := by
  unfold foldChar
  dsimp only
  rw [if_neg (by omega), if_neg (by simp; omega), if_neg (by simp; omega), if_pos h]

theorem foldChar_of_folded {c : Char} (h : Folded c.toNat) : foldChar c = [c] := by
  unfold Folded at h
  unfold foldChar
  simp only [Bool.or_eq_true, Bool.and_eq_true, decide_eq_true_eq, beq_iff_eq, bne_iff_ne]
  rw [if_neg (by omega), if_neg (by omega), if_neg (by omega), if_neg (by omega), if_neg (by omega),
    if_neg (by omega), if_neg (by omega), if_neg (by omega)]

/-- A folded character is in lower case if it is ASCII, and folded otherwise. -/
theorem mem_foldChar {c d : Char} (h : d ∈ foldChar c) :
    (∃ a : Char, a.toNat < 0x80 ∧ d = a.toLower) ∨ Folded d.toNat := by
  have hcode {m : Nat} (hm : m < 0xD800) (hfolded : Folded m) (hd : d = Char.ofNat m) :
      Folded d.toNat := by rwa [hd, toNat_ofNat hm]
  unfold foldChar at h
  simp only [Bool.or_eq_true, Bool.and_eq_true, decide_eq_true_eq, beq_iff_eq, bne_iff_ne] at h
  split at h
  · simp at h
  · split at h
    · exact .inl ⟨'.', by decide, List.mem_singleton.mp h⟩
    · split at h
      · exact .inl ⟨_, by rw [toNat_ofNat (by omega)]; omega, List.mem_singleton.mp h⟩
      · split at h
        · exact .inl ⟨c, by assumption, List.mem_singleton.mp h⟩
        · right
          unfold Folded at hcode ⊢
          split at h
          · exact hcode (by omega) (by omega) (List.mem_singleton.mp h)
          · split at h
            · exact hcode (by omega) (by omega) (List.mem_singleton.mp h)
            · split at h
              · exact hcode (by omega) (by omega) (List.mem_singleton.mp h)
              · split at h
                · exact hcode (by omega) (by omega) (List.mem_singleton.mp h)
                · obtain rfl := List.mem_singleton.mp h
                  omega

theorem foldChar_of_mem {c d : Char} (h : d ∈ foldChar c) : foldChar d = [d] := by
  rcases mem_foldChar h with ⟨a, ha, rfl⟩ | hfolded
  · have hlower : a.toLower.toNat < 0x80 ∧ a.toLower.toLower = a.toLower :=
      forall_ascii (P := fun c => c.toLower.toNat < 0x80 ∧ c.toLower.toLower = c.toLower)
        (by decide +kernel) ha
    rw [foldChar_ascii hlower.1, hlower.2]
  · exact foldChar_of_folded hfolded

theorem flatMap_foldChar {s : List Char} (h : ∀ c ∈ s, foldChar c = [c]) :
    s.flatMap foldChar = s := by
  induction s with
  | nil => rfl
  | cons c s ih =>
      rw [List.flatMap_cons, h c List.mem_cons_self, ih fun d hd => h d (List.mem_cons_of_mem c hd)]
      rfl

theorem foldChar_of_mem_flatMap {s : List Char} {c : Char} (h : c ∈ s.flatMap foldChar) :
    foldChar c = [c] := by
  obtain ⟨d, -, hd⟩ := List.mem_flatMap.mp h
  exact foldChar_of_mem hd

/-! ## Labels -/

/-- A label as it is kept. -/
structure IsLabel (l : List Char) : Prop where
  ascii : ∀ c ∈ l, c.toNat < 0x80
  folded : ∀ c ∈ l, foldChar c = [c]
  dot : '.' ∉ l
  same : asciiLabel? l = some l

/-- The characters of the ASCII text of a label. -/
theorem plain_of_mem_encode {label : List Char} {c : Char} (h : c ∈ Punycode.encode label) :
    c.toNat < 0x80 ∧ (c ∈ label ∨ foldChar c = [c] ∧ c ≠ '.') := by
  rcases Punycode.mem_encode h with hbasic | rfl | ⟨d, hd, rfl⟩
  · obtain ⟨hmem, hlow⟩ := List.mem_filter.mp hbasic
    exact ⟨by simpa using hlow, .inl hmem⟩
  · exact ⟨by decide, .inr (by decide)⟩
  · have all : ∀ e ∈ List.range 36, (Punycode.digitChar e).toNat < 0x80 ∧
        foldChar (Punycode.digitChar e) = [Punycode.digitChar e] ∧ Punycode.digitChar e ≠ '.' := by
      decide +kernel
    obtain ⟨hlow, hplain⟩ := all d (List.mem_range.mpr hd)
    exact ⟨hlow, .inr hplain⟩

theorem isLabel_encode {label : List Char} (hfold : ∀ c ∈ label, foldChar c = [c])
    (hdot : '.' ∉ label) (hhigh : label.all (·.toNat < 0x80) = false)
    (hcontrol : label.any isHighControl = false) :
    IsLabel ('x' :: 'n' :: '-' :: '-' :: Punycode.encode label) := by
  have hsign : ∀ c ∈ ['x', 'n', '-', '-'], c.toNat < 0x80 ∧ foldChar c = [c] ∧ c ≠ '.' := by
    rw [List.forall_mem_cons, List.forall_mem_cons, List.forall_mem_cons, List.forall_mem_singleton]
    decide +kernel
  have hchars : ∀ c ∈ ['x', 'n', '-', '-'] ++ Punycode.encode label,
      c.toNat < 0x80 ∧ foldChar c = [c] ∧ c ≠ '.' := fun c hc => by
    rcases List.mem_append.mp hc with hmem | hmem
    · exact hsign c hmem
    · obtain ⟨hlow, hlabel | hplain⟩ := plain_of_mem_encode hmem
      · exact ⟨hlow, hfold c hlabel, fun heq => hdot (heq ▸ hlabel)⟩
      · exact ⟨hlow, hplain⟩
  refine ⟨fun c hc => (hchars c hc).1, fun c hc => (hchars c hc).2.1,
    fun hmem => (hchars '.' hmem).2.2 rfl, ?_⟩
  have hempty : label.isEmpty = false := by
    cases label with
    | nil => simp at hhigh
    | cons c rest => rfl
  rw [asciiLabel?, Punycode.decode_encode]
  simp only [Option.bind_eq_bind, Option.bind_some, hempty, hhigh, hcontrol, flatMap_foldChar hfold,
    bne_self_eq_false, Bool.or_false, Bool.false_eq_true, if_false]

theorem isLabel_of_asciiLabel? {l a : List Char} (hfold : ∀ c ∈ l, foldChar c = [c])
    (hdot : '.' ∉ l) (h : asciiLabel? l = some a) : IsLabel a := by
  have hread := h
  unfold asciiLabel? at h
  split at h
  · next code =>
    obtain ⟨decoded, -, h⟩ := Option.bind_eq_some_iff.mp h
    split at h
    · simp at h
    · next hcheck =>
      obtain rfl := Option.some.inj h
      have hcode : Punycode.encode decoded = code := by
        simp only [Bool.or_eq_true, not_or, bne_iff_ne, ne_eq, Decidable.not_not] at hcheck
        exact hcheck.2
      refine ⟨fun c hc => ?_, hfold, hdot, hread⟩
      simp only [List.mem_cons] at hc
      rcases hc with rfl | rfl | rfl | rfl | hc
      · decide
      · decide
      · decide
      · decide
      · exact (plain_of_mem_encode (hcode ▸ hc)).1
  · split at h
    · next hascii =>
      obtain rfl := Option.some.inj h
      exact ⟨by simpa using hascii, hfold, hdot, hread⟩
    · split at h
      · simp at h
      · next hhigh hcontrol =>
        obtain rfl := Option.some.inj h
        exact isLabel_encode hfold hdot (by simpa using hhigh) (by simpa using hcontrol)

/-! ## Names -/

/-- A name as it is kept. -/
structure IsName (host : List Char) : Prop where
  ascii : ∀ c ∈ host, c.toNat < 0x80
  allowed : ∀ c ∈ host, isForbidden c = false
  same : asciiName? host = some host

theorem mem_joinLabels {ls : List (List Char)} {c : Char} (h : c ∈ joinLabels ls) :
    c = '.' ∨ ∃ l ∈ ls, c ∈ l := by
  fun_induction joinLabels ls with
  | case1 => simp at h
  | case2 p => exact .inr ⟨p, by simp, h⟩
  | case3 p ps hps ih =>
      rcases List.mem_append.mp h with hmem | hmem
      · exact .inr ⟨p, by simp, hmem⟩
      · rcases List.mem_cons.mp hmem with hdot | hmem
        · exact .inl hdot
        · rcases ih hmem with hdot | ⟨l, hl, hc⟩
          · exact .inl hdot
          · exact .inr ⟨l, List.mem_cons_of_mem p hl, hc⟩

theorem isName_joinLabels {ls : List (List Char)} (hne : ls ≠ []) (hlabels : ∀ l ∈ ls, IsLabel l)
    (hallowed : ∀ l ∈ ls, ∀ c ∈ l, isForbidden c = false) : IsName (joinLabels ls) := by
  have hchars {P : Char → Prop} (hdot : P '.') (hall : ∀ l ∈ ls, ∀ c ∈ l, P c) :
      ∀ c ∈ joinLabels ls, P c := fun c hc => by
    rcases mem_joinLabels hc with rfl | ⟨l, hl, hmem⟩
    · exact hdot
    · exact hall l hl c hmem
  have hfold := hchars (P := fun c => foldChar c = [c]) (by decide +kernel)
    fun l hl => (hlabels l hl).folded
  refine ⟨hchars (by decide) fun l hl => (hlabels l hl).ascii, hchars (by decide) hallowed, ?_⟩
  have hread : ls.mapM asciiLabel? = some ls :=
    mapM_eq_some_iff.mpr (List.forall₂_same.mpr fun l hl => (hlabels l hl).same)
  have hclean : (ls.any fun l => l.any isForbidden) = false := by
    simp only [List.any_eq_false]
    intro l hl
    simpa using hallowed l hl
  unfold asciiName?
  rw [flatMap_foldChar hfold, labels_joinLabels hne fun l hl => (hlabels l hl).dot, hread]
  simp only [Option.bind_eq_bind, Option.bind_some, hclean, Bool.false_eq_true, if_false]

theorem isName_of_asciiName? {name host : List Char} (h : asciiName? name = some host) :
    IsName host := by
  obtain ⟨ls, hread, h⟩ := Option.bind_eq_some_iff.mp h
  split at h
  · simp at h
  · next hclean =>
    obtain rfl := Option.some.inj h
    have hne : ls ≠ [] := by
      rintro rfl
      have hlen := (mapM_eq_some_iff.mp hread).length_eq
      rw [labels_eq, List.length_nil, List.length_eq_zero_iff] at hlen
      exact List.splitOn_ne_nil _ _ hlen
    refine isName_joinLabels hne (fun l hl => ?_) (by simpa using hclean)
    obtain ⟨label, hlabel, hascii⟩ := exists_of_mem_right hread hl
    exact isLabel_of_asciiLabel? (fun c hc => foldChar_of_mem_flatMap (mem_labels hlabel hc).1)
      (fun hdot => (mem_labels hlabel hdot).2 rfl) hascii

theorem parse_of_isName {host : List Char} (h : IsName host) (hne : host ≠ []) :
    parse host = if endsInNumber host then
      match ipv4? host with
      | some n => .ok (ipv4Text n)
      | none => .error .ipv4
    else .ok host := by
  have hsign : '%' ∉ host := fun hmem => absurd (h.allowed _ hmem) (by decide)
  have hhead : (host.head? == some '[') = false := by
    rw [beq_eq_false_iff_ne]
    intro hbracket
    exact absurd (h.allowed _ (List.mem_of_mem_head? hbracket)) (by decide)
  have hempty : host.isEmpty = false := by simpa using hne
  unfold parse
  rw [hempty, hhead, Percent.decodeText_of_not_mem hsign, Option.bind_some,
    String.toList_ofList, h.same, if_neg (by simp), if_neg (by simp)]
  dsimp only
  rw [hempty]
  exact if_neg (by simp)

/-! ## Addresses -/

theorem isLabel_of_isDigit {l : List Char} (h : ∀ c ∈ l, c.isDigit = true) :
    IsLabel l ∧ ∀ c ∈ l, isForbidden c = false := by
  have hascii : ∀ c ∈ l, c.toNat < 0x80 := fun c hc =>
    (hexValue?_bounds (d := c.toNat - '0'.toNat) (if_pos (h c hc))).1
  have hchar : ∀ c ∈ l, foldChar c = [c] ∧ isForbidden c = false := fun c hc =>
    forall_ascii (P := fun c => c.isDigit = true → foldChar c = [c] ∧ isForbidden c = false)
      (by decide +kernel) (hascii c hc) (h c hc)
  refine ⟨⟨hascii, fun c hc => (hchar c hc).1, fun hdot => absurd (h _ hdot) (by decide), ?_⟩,
    fun c hc => (hchar c hc).2⟩
  unfold asciiLabel?
  split
  · exact absurd (h 'x' List.mem_cons_self) (by decide)
  · rw [if_pos (by simpa using hascii)]

theorem isName_ipv4Text (n : Nat) : IsName (ipv4Text n) := by
  have hdigits : ∀ l ∈ (octets n).map (Nat.toDigits 10), ∀ c ∈ l, c.isDigit = true :=
    fun l hl c hc => by
    obtain ⟨k, -, rfl⟩ := List.mem_map.mp hl
    exact Nat.isDigit_of_mem_toDigits (by decide) (by decide) hc
  rw [ipv4Text_eq]
  exact isName_joinLabels (by simp [octets]) (fun l hl => (isLabel_of_isDigit (hdigits l hl)).1)
    fun l hl => (isLabel_of_isDigit (hdigits l hl)).2

theorem ipv4Text_ne_nil (n : Nat) : ipv4Text n ≠ [] := by
  intro hnil
  have := congrArg endsInNumber hnil
  rw [endsInNumber_ipv4Text] at this
  exact absurd this (by decide)

theorem ipv4Text_mod (n : Nat) : ipv4Text (n % 4294967296) = ipv4Text n := by
  have hoctets : octets (n % 4294967296) = octets n := by
    simp only [octets, List.cons.injEq, and_true]
    omega
  rw [ipv4Text_eq, hoctets, ← ipv4Text_eq]

theorem parse_ipv4Text (n : Nat) : parse (ipv4Text n) = .ok (ipv4Text n) := by
  rw [parse_of_isName (isName_ipv4Text n) (ipv4Text_ne_nil n), endsInNumber_ipv4Text,
    ipv4?_ipv4Text]
  simp [ipv4Text_mod]

theorem parse_ipv6Text {gs : List Nat} (h : IsAddress gs) :
    parse (ipv6Text gs) = .ok (ipv6Text gs) :=
  bracketed_ipv6Text h

/-! ## Hosts -/

/-- All that a host is kept as. -/
theorem parse_cases {s host : List Char} (h : parse s = .ok host) :
    (∃ gs, IsAddress gs ∧ host = ipv6Text gs) ∨
      (IsName host ∧ host ≠ [] ∧ endsInNumber host = false) ∨ ∃ n, host = ipv4Text n := by
  unfold parse at h
  split at h
  · simp at h
  · split at h
    · unfold bracketed at h
      split at h
      · split at h
        · next gs hgs => exact .inl ⟨gs, isAddress_of_ipv6? hgs, (Except.ok.inj h).symm⟩
        · simp at h
      · simp at h
    · right
      split at h
      · simp at h
      · next name hname =>
        obtain ⟨text, -, hascii⟩ := Option.bind_eq_some_iff.mp hname
        split at h
        · simp at h
        · next hne =>
          split at h
          · split at h
            · next n _ => exact .inr ⟨n, (Except.ok.inj h).symm⟩
            · simp at h
          · next hend =>
            obtain rfl := Except.ok.inj h
            exact .inl ⟨isName_of_asciiName? hascii, by simpa using hne, by simpa using hend⟩

/-- A host that was read is read again as itself. -/
theorem parse_parse {s host : List Char} (h : parse s = .ok host) : parse host = .ok host := by
  rcases parse_cases h with ⟨gs, hgs, rfl⟩ | ⟨hname, hne, hend⟩ | ⟨n, rfl⟩
  · exact parse_ipv6Text hgs
  · rw [parse_of_isName hname hne, hend]
    rfl
  · exact parse_ipv4Text n

/-! ## What a host text ends in -/

theorem mem_asciiLabel? {l a : List Char} (h : asciiLabel? l = some a) {c : Char} (hc : c ∈ l)
    (hlow : c.toNat < 0x80) : c ∈ a := by
  unfold asciiLabel? at h
  split at h
  · obtain ⟨decoded, -, h⟩ := Option.bind_eq_some_iff.mp h
    split at h
    · simp at h
    · exact Option.some.inj h ▸ hc
  · split at h
    · exact Option.some.inj h ▸ hc
    · split at h
      · simp at h
      · have hbasic : c ∈ Punycode.below 0x80 l := List.mem_filter.mpr ⟨hc, by simpa using hlow⟩
        rw [← Option.some.inj h]
        simp [Punycode.basic_subset_encode l hbasic]

/-- A character that folding leaves alone and no name may hold. -/
theorem asciiName?_of_forbidden {name host : List Char} (h : asciiName? name = some host) {c : Char}
    (hlow : c.toNat < 0x80) (hfold : foldChar c = [c]) (hdot : c ≠ '.') (hc : c ∈ name) :
    isForbidden c = false := by
  obtain ⟨ls, hread, h⟩ := Option.bind_eq_some_iff.mp h
  split at h
  · simp at h
  · next hclean =>
    have hmem : c ∈ joinLabels (labels (name.flatMap foldChar)) := by
      rw [joinLabels_labels]
      exact List.mem_flatMap.mpr ⟨c, hc, by simp [hfold]⟩
    rcases mem_joinLabels hmem with heq | ⟨l, hl, hcl⟩
    · exact absurd heq hdot
    · obtain ⟨a, ha, hascii⟩ := exists_of_mem_left hread hl
      simp only [List.any_eq_true, not_exists, not_and, Bool.not_eq_true] at hclean
      exact hclean a ha c (mem_asciiLabel? hascii hcl hlow)

/-- No host is read from a text that ends in a blank or a control character. -/
theorem lt_of_parse_concat {s host : List Char} {c : Char} (h : parse (s ++ [c]) = .ok host) :
    0x20 < c.toNat := by
  refine Nat.lt_of_not_le fun hle => ?_
  have hblank :
      Text.hexValue? c = none ∧ foldChar c = [c] ∧ c ≠ '.' ∧ c ≠ ']' ∧ isForbidden c = true :=
    forall_ascii (P := fun c => c.toNat ≤ 0x20 →
        Text.hexValue? c = none ∧ foldChar c = [c] ∧ c ≠ '.' ∧ c ≠ ']' ∧ isForbidden c = true)
      (by decide +kernel) (by omega) hle
  obtain ⟨hhex, hfold, hdot, hclose, hforbidden⟩ := hblank
  unfold parse at h
  rw [if_neg (by simp)] at h
  split at h
  · rw [bracketed, if_neg (by simpa using hclose)] at h
    simp at h
  · split at h
    · simp at h
    · next name hname =>
      obtain ⟨text, htext, hascii⟩ := Option.bind_eq_some_iff.mp hname
      have hmem := Percent.mem_of_decodeText_concat hhex (by omega) htext
      have hallowed := asciiName?_of_forbidden hascii (by omega) hfold hdot hmem
      simp [hforbidden] at hallowed

/-! ## Where a host ends -/

/-- The characters that no host has. -/
def isDelimiter (c : Char) : Bool := c.toNat ≤ 0x20 || "/?#@\\".toList.contains c

theorem isDelimiter_of_isForbidden {c : Char} (h : isForbidden c = false) :
    isDelimiter c = false := by
  simp [isForbidden] at h
  simp [isDelimiter, h]

theorem plain_of_hexValue? {c : Char} {d : Nat} (h : Text.hexValue? c = some d) :
    isDelimiter c = false ∧ c ≠ '[' ∧ c ≠ ']' :=
  forall_ascii (P := fun c => (Text.hexValue? c).isSome → isDelimiter c = false ∧ c ≠ '[' ∧ c ≠ ']')
    (by decide +kernel) (hexValue?_bounds h).1 (by rw [h]; rfl)

theorem plain_of_mem_innerText {gs : List Nat} {c : Char} (h : c ∈ innerText gs) :
    isDelimiter c = false ∧ c ≠ '[' ∧ c ≠ ']' := by
  rcases mem_innerText h with rfl | ⟨d, hd⟩
  · decide
  · exact plain_of_hexValue? hd

theorem isName_of_parse {s host : List Char} (h : parse s = .ok host) :
    (∃ gs, host = ipv6Text gs) ∨ IsName host := by
  rcases parse_cases h with ⟨gs, -, rfl⟩ | ⟨hname, -, -⟩ | ⟨n, rfl⟩
  · exact .inl ⟨gs, rfl⟩
  · exact .inr hname
  · exact .inr (isName_ipv4Text n)

theorem isDelimiter_of_parse {s host : List Char} (h : parse s = .ok host) :
    ∀ c ∈ host, isDelimiter c = false := fun c hc => by
  rcases isName_of_parse h with ⟨gs, rfl⟩ | hname
  · simp only [ipv6Text_eq, List.mem_cons, List.mem_append, List.not_mem_nil, or_false] at hc
    rcases hc with rfl | hinner | rfl
    · decide
    · exact (plain_of_mem_innerText hinner).1
    · decide
  · exact isDelimiter_of_isForbidden (hname.allowed c hc)

/-- Colons that are no part of a host are not in front of it. -/
theorem cutHost_append {bracket : Bool} {s : List Char}
    (h : ∀ c ∈ s, c ≠ '[' ∧ c ≠ ']' ∧ (c = ':' → bracket = true)) (rest : List Char) :
    Url.cutHost bracket (s ++ rest) =
      (s ++ (Url.cutHost bracket rest).1, (Url.cutHost bracket rest).2) := by
  induction s with
  | nil => rfl
  | cons c s ih =>
      obtain ⟨hopen, hclose, hcolon⟩ := h c List.mem_cons_self
      have hin : ¬((decide (c = ':') && !bracket) = true) := by
        cases bracket <;> simp_all
      rw [List.cons_append, Url.cutHost, if_neg hin, if_neg hopen, if_neg hclose]
      dsimp only
      rw [ih fun d hd => h d (List.mem_cons_of_mem c hd)]
      rfl

/-- A host ends where a port begins. -/
theorem cutHost_of_parse {s host rest : List Char} (h : parse s = .ok host)
    (hrest : rest = [] ∨ rest.head? = some ':') :
    Url.cutHost false (host ++ rest) = (host, rest) := by
  have hend : Url.cutHost false rest = ([], rest) := by
    cases rest with
    | nil => rfl
    | cons c rest =>
        obtain rfl : c = ':' := by simpa using hrest
        rfl
  rcases isName_of_parse h with ⟨gs, rfl⟩ | hname
  · have hinner := @cutHost_append true (innerText gs) (fun c hc =>
      ⟨(plain_of_mem_innerText hc).2.1, (plain_of_mem_innerText hc).2.2, fun _ => rfl⟩)
        (']' :: rest)
    have hclose : Url.cutHost true (']' :: rest) = ([']'], rest) := by
      simp [Url.cutHost, hend]
    rw [hclose] at hinner
    rw [ipv6Text_eq]
    simp [Url.cutHost, hinner]
  · have hall : ∀ c ∈ host, c ≠ '[' ∧ c ≠ ']' ∧ (c = ':' → false = true) := fun c hc => by
      have hallowed := hname.allowed c hc
      refine ⟨?_, ?_, ?_⟩
      · rintro rfl
        exact absurd hallowed (by decide)
      · rintro rfl
        exact absurd hallowed (by decide)
      · rintro rfl
        exact absurd hallowed (by decide)
    rw [cutHost_append hall, hend]
    simp

end PartDepot.Host
