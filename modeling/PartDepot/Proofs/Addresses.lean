import Mathlib.Algebra.Group.Nat.Defs
import Mathlib.Data.List.Forall2
import PartDepot.Url.Host

/-!
# Addresses and their text

The usual form of an address reads back as the same address.  Four bytes are written in
decimal; of eight groups the longest run of zeros is left out, and what stands on both sides
of it determines how long it was.
-/

namespace PartDepot.Host

/-! ## Pieces of a text -/

/-- The recursion that all readers of pieces follow. -/
theorem eq_splitOnP {f : List Char → List (List Char)} {sep : Char → Prop} [DecidablePred sep]
    (hnil : f [] = [[]])
    (hcons : ∀ c rest, f (c :: rest) = match f rest with
      | [] => [[c]]
      | p :: ps => if sep c then [] :: p :: ps else (c :: p) :: ps) (s : List Char) :
    f s = s.splitOnP sep := by
  induction s with
  | nil => exact hnil
  | cons c rest ih =>
      obtain ⟨p, ps, hrest⟩ := List.exists_cons_of_ne_nil (List.splitOnP_ne_nil (sep ·) rest)
      rw [hcons, ih, List.splitOnP_cons_eq_if_modifyHead, hrest]
      simp

theorem labels_eq (s : List Char) : labels s = s.splitOn '.' :=
  eq_splitOnP rfl (fun _ _ => rfl) s

theorem groups_eq (s : List Char) : groups s = s.splitOn ':' :=
  eq_splitOnP rfl (fun _ _ => rfl) s

theorem joinLabels_eq (ls : List (List Char)) : joinLabels ls = ['.'].intercalate ls := by
  fun_induction joinLabels ls with
  | case1 => rfl
  | case2 p => simp
  | case3 p ps hps ih =>
      obtain ⟨q, qs, rfl⟩ := List.exists_cons_of_ne_nil hps
      rw [ih, List.intercalate_cons_cons]
      simp

theorem labels_joinLabels {ls : List (List Char)} (hne : ls ≠ []) (h : ∀ l ∈ ls, '.' ∉ l) :
    labels (joinLabels ls) = ls := by
  rw [labels_eq, joinLabels_eq, List.splitOn_intercalate '.' h hne]

theorem mem_splitOnP {sep : Char → Bool} {s l : List Char} (h : l ∈ s.splitOnP sep) {c : Char}
    (hc : c ∈ l) : c ∈ s ∧ sep c = false := by
  induction s generalizing l with
  | nil => simp_all
  | cons d rest ih =>
      obtain ⟨p, ps, hrest⟩ := List.exists_cons_of_ne_nil (List.splitOnP_ne_nil sep rest)
      have hlater (hmem : l ∈ p :: ps) : c ∈ d :: rest ∧ sep c = false :=
        have hfound := ih (hrest ▸ hmem) hc
        ⟨List.mem_cons_of_mem d hfound.1, hfound.2⟩
      rw [List.splitOnP_cons_eq_if_modifyHead, hrest] at h
      split at h
      · rcases List.mem_cons.mp h with rfl | hmem
        · simp at hc
        · exact hlater hmem
      · next hd =>
        rcases List.mem_cons.mp h with rfl | hmem
        · rcases List.mem_cons.mp hc with rfl | hc
          · exact ⟨List.mem_cons_self, by simpa using hd⟩
          · have hfound := ih (hrest ▸ List.mem_cons_self) hc
            exact ⟨List.mem_cons_of_mem d hfound.1, hfound.2⟩
        · exact hlater (List.mem_cons_of_mem p hmem)

theorem mem_labels {s l : List Char} (h : l ∈ labels s) {c : Char} (hc : c ∈ l) :
    c ∈ s ∧ c ≠ '.' := by
  rw [labels_eq, List.splitOn_eq_splitOnP] at h
  simpa using mem_splitOnP h hc

theorem joinLabels_labels (s : List Char) : joinLabels (labels s) = s := by
  rw [joinLabels_eq, labels_eq, List.intercalate_splitOn]

/-- What is read from a list, item by item. -/
theorem mapM_eq_some_iff {α β : Type} {f : α → Option β} {xs : List α} {ys : List β} :
    xs.mapM f = some ys ↔ List.Forall₂ (fun x y => f x = some y) xs ys := by
  induction xs generalizing ys with
  | nil => cases ys <;> simp
  | cons x xs ih =>
      rw [List.mapM_cons, List.forall₂_cons_left_iff]
      simp only [Option.bind_eq_bind, Option.pure_def, Option.bind_eq_some_iff, Option.some.injEq]
      constructor
      · rintro ⟨y, hy, zs, hzs, rfl⟩
        exact ⟨y, zs, hy, ih.mp hzs, rfl⟩
      · rintro ⟨y, zs, hy, hzs, rfl⟩
        exact ⟨y, hy, zs, ih.mpr hzs, rfl⟩

theorem exists_of_mem_left {α β : Type} {f : α → Option β} {xs : List α} {ys : List β}
    (h : xs.mapM f = some ys) {x : α} (hx : x ∈ xs) : ∃ y ∈ ys, f x = some y := by
  have hall := mapM_eq_some_iff.mp h
  induction hall with
  | nil => simp at hx
  | cons hfirst hrest ih =>
      rcases List.mem_cons.mp hx with rfl | hx
      · exact ⟨_, List.mem_cons_self, hfirst⟩
      · obtain ⟨y, hy, hread⟩ := ih (mapM_eq_some_iff.mpr hrest) hx
        exact ⟨y, List.mem_cons_of_mem _ hy, hread⟩

theorem exists_of_mem_right {α β : Type} {f : α → Option β} {xs : List α} {ys : List β}
    (h : xs.mapM f = some ys) {y : β} (hy : y ∈ ys) : ∃ x ∈ xs, f x = some y := by
  have hall := mapM_eq_some_iff.mp h
  induction hall with
  | nil => simp at hy
  | cons hfirst hrest ih =>
      rcases List.mem_cons.mp hy with rfl | hy
      · exact ⟨_, List.mem_cons_self, hfirst⟩
      · obtain ⟨x, hx, hread⟩ := ih (mapM_eq_some_iff.mpr hrest) hy
        exact ⟨x, List.mem_cons_of_mem _ hx, hread⟩

/-! ## Addresses of four bytes -/

theorem addressNumber?_toDigits {k : Nat} (h : k < 256) :
    addressNumber? (Nat.toDigits 10 k) = some (some k) := by
  have all : ∀ m ∈ List.range 256, addressNumber? (Nat.toDigits 10 m) = some (some m) := by
    decide +kernel
  exact all k (List.mem_range.mpr h)

/-- The bytes of an address. -/
def octets (n : Nat) : List Nat :=
  [n / 16777216 % 256, n / 65536 % 256, n / 256 % 256, n % 256]

theorem ipv4Text_eq (n : Nat) : ipv4Text n = joinLabels ((octets n).map (Nat.toDigits 10)) := by
  simp [ipv4Text, octets, joinLabels, Nat.toList_repr, toString]

theorem labels_ipv4Text (n : Nat) : labels (ipv4Text n) = (octets n).map (Nat.toDigits 10) := by
  rw [ipv4Text_eq, labels_joinLabels (by simp [octets])]
  intro l hl hdot
  obtain ⟨k, -, rfl⟩ := List.mem_map.mp hl
  exact absurd (Nat.isDigit_of_mem_toDigits (by decide) (by decide) hdot) (by decide)

theorem endsInNumber_ipv4Text (n : Nat) : endsInNumber (ipv4Text n) = true := by
  have hdigits : (Nat.toDigits 10 (n % 256)).all Char.isDigit = true :=
    List.all_eq_true.mpr fun c hc => Nat.isDigit_of_mem_toDigits (by decide) (by decide) hc
  obtain ⟨d, ds, hlast⟩ := List.exists_cons_of_ne_nil (Nat.toDigits_ne_nil (n := n % 256) (b := 10))
  unfold endsInNumber
  rw [labels_ipv4Text]
  rw [hlast] at hdigits
  simp [octets, hlast, hdigits]

theorem ipv4?_ipv4Text (n : Nat) : ipv4? (ipv4Text n) = some (n % 4294967296) := by
  have hlast : (labels (ipv4Text n)).getLast? ≠ some [] := by
    simp [labels_ipv4Text, octets, Nat.toDigits_ne_nil]
  have hnumbers : ((octets n).map (Nat.toDigits 10)).mapM (fun p => (addressNumber? p).join) =
      some (octets n) := by
    simp [octets, addressNumber?_toDigits, Nat.mod_lt]
  rw [labels_ipv4Text] at hlast
  unfold ipv4?
  rw [labels_ipv4Text]
  simp only [beq_iff_eq, hlast, if_false, hnumbers]
  simp only [octets, List.getLast?_cons_cons, List.getLast?_singleton, List.dropLast_cons_cons,
    List.dropLast_singleton, Option.bind_eq_bind, Option.bind_some]
  simp
  omega

/-! ## Addresses of eight groups -/

/-- The digits of a group have its value. -/
theorem mapM_hexValue?_toDigits (g : Nat) :
    ∃ ds, (Nat.toDigits 16 g).mapM Text.hexValue? = some ds ∧
    ds.foldl (fun n d => n * 16 + d) 0 = g := by
  induction g using Nat.strongRecOn with
  | ind g ih =>
    have hdigit {d : Nat} (hd : d < 16) : Text.hexValue? d.digitChar = some d :=
      Text.hexValue?_hexDigit hd
    by_cases hg : g < 16
    · exact ⟨[g], by simp [Nat.toDigits_of_lt_base hg, hdigit hg], by simp⟩
    · obtain ⟨ds, hread, hvalue⟩ := ih (g / 16) (by omega)
      refine ⟨ds ++ [g % 16], ?_, ?_⟩
      · rw [Nat.toDigits_of_base_le (by decide) (by omega), List.mapM_append, hread]
        simp [hdigit (Nat.mod_lt g (by decide))]
      · rw [List.foldl_append, hvalue]
        simp
        omega

theorem group?_toDigits {g : Nat} (h : g < 65536) : group? (Nat.toDigits 16 g) = some g := by
  obtain ⟨ds, hread, hvalue⟩ := mapM_hexValue?_toDigits g
  have hlen : (Nat.toDigits 16 g).length ≤ 4 :=
    (Nat.length_toDigits_le_iff (by decide) (by decide)).mpr h
  have hne : (Nat.toDigits 16 g).isEmpty = false := by simp [Nat.toDigits_ne_nil]
  simp [group?, hne, hread, hvalue, Nat.not_lt.mpr hlen]

theorem hexValue?_of_mem_toDigits {g : Nat} {c : Char} (hc : c ∈ Nat.toDigits 16 g) :
    ∃ d, Text.hexValue? c = some d := by
  obtain ⟨ds, hread, -⟩ := mapM_hexValue?_toDigits g
  obtain ⟨d, -, hd⟩ := exists_of_mem_left hread hc
  exact ⟨d, hd⟩

theorem not_mem_toDigits {d : Char} (hd : Text.hexValue? d = none) (g : Nat) :
    d ∉ Nat.toDigits 16 g := fun hmem => by
  obtain ⟨v, hv⟩ := hexValue?_of_mem_toDigits hmem
  simp [hd] at hv

theorem groupText_eq (gs : List Nat) :
    groupText gs = [':'].intercalate (gs.map (Nat.toDigits 16)) := by
  simp [groupText, String.toList_intercalate, Function.comp_def]

theorem groupText_cons_cons (g g' : Nat) (gs : List Nat) :
    groupText (g :: g' :: gs) = Nat.toDigits 16 g ++ ':' :: groupText (g' :: gs) := by
  simp [groupText_eq]

/-- A group starts with a digit. -/
theorem groupText_cons (g : Nat) (gs : List Nat) :
    ∃ c rest d, groupText (g :: gs) = c :: rest ∧ Text.hexValue? c = some d := by
  obtain ⟨c, cs, hdigits⟩ := List.exists_cons_of_ne_nil (Nat.toDigits_ne_nil (n := g) (b := 16))
  obtain ⟨d, hd⟩ := hexValue?_of_mem_toDigits (g := g) (c := c) (by simp [hdigits])
  cases gs with
  | nil => exact ⟨c, cs, d, by simp [groupText_eq, hdigits], hd⟩
  | cons g' gs =>
      exact ⟨c, cs ++ ':' :: groupText (g' :: gs), d, by rw [groupText_cons_cons, hdigits]; rfl, hd⟩

theorem mem_groupText {gs : List Nat} {c : Char} (h : c ∈ groupText gs) :
    c = ':' ∨ ∃ d, Text.hexValue? c = some d := by
  induction gs with
  | nil => exact absurd h List.not_mem_nil
  | cons g gs ih =>
      cases gs with
      | nil =>
          rw [groupText_eq, List.map_singleton, List.intercalate_singleton] at h
          exact .inr (hexValue?_of_mem_toDigits h)
      | cons g' gs =>
          rw [groupText_cons_cons] at h
          rcases List.mem_append.mp h with hdigit | hrest
          · exact .inr (hexValue?_of_mem_toDigits hdigit)
          · rcases List.mem_cons.mp hrest with hcolon | hrest
            · exact .inl hcolon
            · exact ih hrest

theorem groups_groupText {gs : List Nat} (hne : gs ≠ []) :
    groups (groupText gs) = gs.map (Nat.toDigits 16) := by
  rw [groups_eq, groupText_eq, List.splitOn_intercalate ':' _ (by simpa using hne)]
  intro l hl
  obtain ⟨g, -, rfl⟩ := List.mem_map.mp hl
  exact not_mem_toDigits (by decide) g

theorem groupList?_toDigits {gs : List Nat} (h : ∀ g ∈ gs, g < 65536) :
    groupList? (gs.map (Nat.toDigits 16)) = some gs := by
  induction gs with
  | nil => rfl
  | cons g gs ih =>
      have hg := group?_toDigits (h g List.mem_cons_self)
      cases gs with
      | nil =>
          have hdot : '.' ∉ Nat.toDigits 16 g := not_mem_toDigits (by decide) g
          simp [groupList?, hdot, hg]
      | cons g' gs =>
          have hrest := ih fun k hk => h k (List.mem_cons_of_mem g hk)
          rw [List.map_cons, groupList?, hg, hrest]
          · rfl
          · exact List.cons_ne_nil _ _

/-- Up to a colon there is no pair of colons. -/
theorem cutPair_append {p : List Char} (hp : ':' ∉ p) (s : List Char) :
    cutPair (p ++ s) = (cutPair s).map (Prod.map (p ++ ·) id) := by
  induction p with
  | nil => exact Option.map_id.symm ▸ rfl
  | cons c p ih =>
      obtain ⟨hc, hp⟩ := List.ne_and_not_mem_of_not_mem_cons hp
      rw [List.cons_append, cutPair, ih hp, Option.map_map]
      · rfl
      · rintro rest rfl
        exact absurd rfl hc

theorem cutPair_colon {s : List Char} (hs : s.head? ≠ some ':') :
    cutPair (':' :: s) = (cutPair s).map (Prod.map (':' :: ·) id) := by
  rw [cutPair]
  · rfl
  · rintro rest hrest rfl
    exact hs rfl

theorem cutPair_groupText (gs : List Nat) (s : List Char) :
    cutPair (groupText gs ++ s) = (cutPair s).map (Prod.map (groupText gs ++ ·) id) := by
  have hcolon (g : Nat) : ':' ∉ Nat.toDigits 16 g := not_mem_toDigits (by decide) g
  induction gs with
  | nil => exact cutPair_append List.not_mem_nil s
  | cons g gs ih =>
      cases gs with
      | nil =>
          rw [groupText_eq, List.map_singleton, List.intercalate_singleton]
          exact cutPair_append (hcolon g) s
      | cons g' gs =>
          have hhead : (groupText (g' :: gs) ++ s).head? ≠ some ':' := by
            obtain ⟨c, rest, d, htext, hd⟩ := groupText_cons g' gs
            rw [htext]
            rintro ⟨⟩
            exact absurd hd (by decide +revert)
          rw [groupText_cons_cons, List.append_assoc, cutPair_append (hcolon g), List.cons_append,
            cutPair_colon hhead, ih, Option.map_map, Option.map_map]
          congr 1
          funext ⟨a, b⟩
          simp

/-- A run of zeros at the start. -/
theorem eq_replicate_append (gs : List Nat) :
    gs = List.replicate (zeros gs) 0 ++ gs.drop (zeros gs) := by
  induction gs with
  | nil => rfl
  | cons g gs ih =>
      unfold zeros at ih ⊢
      by_cases hg : g = 0
      · subst hg
        simpa [List.replicate_succ] using ih
      · simp [hg]

theorem longestZeros_spec {gs : List Nat} {i n : Nat} (h : longestZeros gs = some (i, n)) :
    2 ≤ n ∧ gs.drop i = List.replicate n 0 ++ gs.drop (i + n) := by
  have hbest : ∀ p, longestZeros gs = some p → 2 ≤ p.2 ∧ p.2 = zeros (gs.drop p.1) := by
    refine List.foldlRecOn
      (motive := fun best : Option (Nat × Nat) => ∀ p, best = some p →
        2 ≤ p.2 ∧ p.2 = zeros (gs.drop p.1))
      _ _ (fun p hp => by simp at hp) fun best hbest j _ p hp => ?_
    have hnew : some (j, zeros (gs.drop j)) = some p → 2 ≤ zeros (gs.drop j) →
        2 ≤ p.2 ∧ p.2 = zeros (gs.drop p.1) := by
      rintro ⟨⟩ hlong
      exact ⟨hlong, rfl⟩
    dsimp only at hp
    split at hp
    · exact hbest p hp
    · next hlong =>
      split at hp
      · split at hp
        · exact hnew hp (by omega)
        · exact hbest p hp
      · exact hnew hp (by omega)
  obtain ⟨hlong, hzeros⟩ := hbest _ h
  refine ⟨hlong, ?_⟩
  dsimp only at hzeros
  rw [← List.drop_drop, hzeros]
  exact eq_replicate_append _

/-- An address of eight groups of two bytes. -/
structure IsAddress (gs : List Nat) : Prop where
  length : gs.length = 8
  bound : ∀ g ∈ gs, g < 65536

/-- What stands on one side of a pair of colons. -/
def side? (s : List Char) : Option (List Nat) :=
  if s.isEmpty then some [] else groupList? (groups s)

theorem ipv6?_of_whole {s : List Char} {gs : List Nat} (hcut : cutPair s = none)
    (hs : side? s = some gs) (hlen : gs.length = 8) : ipv6? s = some gs := by
  unfold side? at hs
  unfold ipv6?
  rw [hcut]
  dsimp only
  rw [hs]
  simp [hlen]

theorem ipv6?_of_sides {s front back : List Char} {a b : List Nat}
    (hcut : cutPair s = some (front, back))
    (hdot : '.' ∉ front) (ha : side? front = some a) (hb : side? back = some b)
    (hlen : a.length + b.length < 8) :
    ipv6? s = some (a ++ List.replicate (8 - (a.length + b.length)) 0 ++ b) := by
  unfold side? at ha hb
  unfold ipv6?
  rw [hcut]
  dsimp only
  rw [ha, hb]
  simp [hdot, Nat.sub_eq_zero_iff_le, hlen]

theorem side?_groupText {gs : List Nat} (h : ∀ g ∈ gs, g < 65536) :
    side? (groupText gs) = some gs := by
  unfold side?
  cases gs with
  | nil => rfl
  | cons g gs =>
      obtain ⟨c, rest, d, htext, -⟩ := groupText_cons g gs
      rw [groups_groupText (List.cons_ne_nil g gs), groupList?_toDigits h, htext]
      rfl

/-- What stands between the brackets. -/
def innerText (gs : List Nat) : List Char :=
  match longestZeros gs with
  | none => groupText gs
  | some (i, n) => groupText (gs.take i) ++ ':' :: ':' :: groupText (gs.drop (i + n))

theorem ipv6Text_eq (gs : List Nat) : ipv6Text gs = '[' :: (innerText gs ++ [']']) := rfl

theorem ipv6?_innerText {gs : List Nat} (h : IsAddress gs) : ipv6? (innerText gs) = some gs := by
  unfold innerText
  cases hrun : longestZeros gs with
  | none =>
      have hcut : cutPair (groupText gs) = none := by simpa [cutPair] using cutPair_groupText gs []
      exact ipv6?_of_whole hcut (side?_groupText h.bound) h.length
  | some run =>
      obtain ⟨i, n⟩ := run
      obtain ⟨hlong, hzeros⟩ := longestZeros_spec hrun
      have hcut : cutPair (groupText (gs.take i) ++ ':' :: ':' :: groupText (gs.drop (i + n))) =
          some (groupText (gs.take i), groupText (gs.drop (i + n))) := by
        rw [cutPair_groupText]
        simp [cutPair]
      have hlen := congrArg List.length hzeros
      have hgs := h.length
      simp only [List.length_drop, List.length_append, List.length_replicate] at hlen
      have hfront : (gs.take i).length + (gs.drop (i + n)).length + n = 8 := by
        simp only [List.length_take, List.length_drop]
        omega
      have hdot : '.' ∉ groupText (gs.take i) := fun hmem => by
        obtain hcolon | ⟨d, hd⟩ := mem_groupText hmem
        · exact absurd hcolon (by decide)
        · exact absurd hd (by decide +revert)
      have hsides := ipv6?_of_sides hcut hdot
        (side?_groupText fun g hg => h.bound g (List.mem_of_mem_take hg))
        (side?_groupText fun g hg => h.bound g (List.mem_of_mem_drop hg)) (by omega)
      have hmissing : 8 - ((gs.take i).length + (gs.drop (i + n)).length) = n := by omega
      rw [hsides, hmissing, List.append_assoc, ← hzeros, List.take_append_drop]

/-- A hexadecimal digit is an ASCII character, and its value is below sixteen. -/
theorem hexValue?_bounds {c : Char} {d : Nat} (h : Text.hexValue? c = some d) :
    c.toNat < 0x80 ∧ d < 16 := by
  unfold Text.hexValue? at h
  simp only [Char.isDigit, Bool.and_eq_true, decide_eq_true_eq] at h
  have hzero : '0'.toNat = 48 := rfl
  have ha : 'a'.toNat = 97 := rfl
  have hA : 'A'.toNat = 65 := rfl
  split at h
  · next hc =>
    have hle : c.toNat ≤ 57 := hc.2
    obtain rfl := Option.some.inj h
    omega
  · split at h
    · next hc =>
      have hle : c.toNat ≤ 102 := hc.2
      obtain rfl := Option.some.inj h
      omega
    · split at h
      · next hc =>
        have hle : c.toNat ≤ 70 := hc.2
        obtain rfl := Option.some.inj h
        omega
      · simp at h

/-- What holds for each ASCII character can be looked up. -/
theorem forall_ascii {P : Char → Prop} (h : ∀ n ∈ List.range 0x80, P (Char.ofNat n)) {c : Char}
    (hc : c.toNat < 0x80) : P c := by
  have := h c.toNat (List.mem_range.mpr hc)
  rwa [Char.ofNat_toNat] at this

theorem foldl_lt {base : Nat} {ds : List Nat} (h : ∀ d ∈ ds, d < base) (start : Nat) :
    ds.foldl (fun n d => n * base + d) start < (start + 1) * base ^ ds.length := by
  induction ds generalizing start with
  | nil => simp
  | cons d ds ih =>
      have hd := h d List.mem_cons_self
      refine Nat.lt_of_lt_of_le (ih (fun d hd => h d (List.mem_cons_of_mem _ hd)) _) ?_
      rw [List.length_cons, Nat.pow_succ', ← Nat.mul_assoc]
      apply Nat.mul_le_mul_right
      dsimp only
      rw [Nat.add_mul]
      omega

theorem group?_lt {s : List Char} {g : Nat} (h : group? s = some g) : g < 65536 := by
  unfold group? at h
  split at h
  · simp at h
  · next hlen =>
    obtain ⟨ds, hread, rfl⟩ := Option.map_eq_some_iff.mp h
    have hdigits : ∀ d ∈ ds, d < 16 := fun d hd => by
      obtain ⟨c, -, hc⟩ := exists_of_mem_right hread hd
      exact (hexValue?_bounds hc).2
    have hds : ds.length ≤ 4 := by
      have := (mapM_eq_some_iff.mp hread).length_eq
      simp at hlen
      omega
    calc
      _ < (0 + 1) * 16 ^ ds.length := foldl_lt hdigits 0
      _ ≤ 65536 := by
        rw [Nat.zero_add, Nat.one_mul]
        exact Nat.pow_le_pow_right (by decide) hds

theorem embedded?_lt {s : List Char} {gs : List Nat} (h : embedded? s = some gs) :
    ∀ g ∈ gs, g < 65536 := by
  unfold embedded? at h
  obtain ⟨bytes, hread, hbytes⟩ := Option.bind_eq_some_iff.mp h
  have hlt : ∀ b ∈ bytes, b < 256 := fun b hb => by
    obtain ⟨p, -, hp⟩ := exists_of_mem_right hread hb
    split at hp
    · simp at hp
    · dsimp only at hp
      split at hp
      · next hsmall => exact Option.some.inj hp ▸ hsmall
      · simp at hp
  split at hbytes
  · next a b c d =>
    obtain rfl := Option.some.inj hbytes
    simp only [List.mem_cons, List.not_mem_nil, or_false, forall_eq_or_imp, forall_eq] at hlt ⊢
    omega
  · simp at hbytes

theorem groupList?_lt {ps : List (List Char)} {gs : List Nat} (h : groupList? ps = some gs) :
    ∀ g ∈ gs, g < 65536 := by
  fun_induction groupList? ps generalizing gs with
  | case1 => simp_all
  | case2 last hdot => exact embedded?_lt h
  | case3 last hdot =>
      obtain ⟨g, hg, rfl⟩ := Option.map_eq_some_iff.mp h
      simpa using group?_lt hg
  | case4 p rest hrest ih =>
      obtain ⟨g, hg, h⟩ := Option.bind_eq_some_iff.mp h
      obtain ⟨others, hothers, h⟩ := Option.bind_eq_some_iff.mp h
      obtain rfl := Option.some.inj h
      simpa using ⟨group?_lt hg, ih hothers⟩

theorem side?_lt {s : List Char} {gs : List Nat} (h : side? s = some gs) : ∀ g ∈ gs, g < 65536 := by
  unfold side? at h
  split at h
  · obtain rfl := Option.some.inj h
    simp
  · exact groupList?_lt h

theorem isAddress_of_ipv6? {s : List Char} {gs : List Nat} (h : ipv6? s = some gs) :
    IsAddress gs := by
  unfold ipv6? at h
  dsimp only at h
  split at h
  · obtain ⟨whole, hwhole, h⟩ := Option.bind_eq_some_iff.mp h
    split at h
    · next hlen =>
      obtain rfl := Option.some.inj h
      exact ⟨hlen, side?_lt hwhole⟩
    · simp at h
  · next front back hcut =>
    split at h
    · simp at h
    · obtain ⟨a, ha, h⟩ := Option.bind_eq_some_iff.mp h
      obtain ⟨b, hb, h⟩ := Option.bind_eq_some_iff.mp h
      split at h
      · simp at h
      · next hmissing =>
        obtain rfl := Option.some.inj h
        refine ⟨by simp; omega, fun g hg => ?_⟩
        simp only [List.mem_append, List.mem_replicate] at hg
        rcases hg with (hfront | ⟨-, rfl⟩) | hback
        · exact side?_lt ha g hfront
        · decide
        · exact side?_lt hb g hback

theorem mem_innerText {gs : List Nat} {c : Char} (h : c ∈ innerText gs) :
    c = ':' ∨ ∃ d, Text.hexValue? c = some d := by
  unfold innerText at h
  split at h
  · exact mem_groupText h
  · simp only [List.mem_append, List.mem_cons] at h
    rcases h with hfront | rfl | rfl | hback
    · exact mem_groupText hfront
    · exact .inl rfl
    · exact .inl rfl
    · exact mem_groupText hback

/-- An address in brackets is kept as it is. -/
theorem bracketed_ipv6Text {gs : List Nat} (h : IsAddress gs) :
    bracketed (ipv6Text gs) = .ok (ipv6Text gs) := by
  have hlast : (ipv6Text gs).getLast? = some ']' := by
    rw [ipv6Text_eq, ← List.cons_append]
    exact List.getLast?_concat
  have hinner : ((ipv6Text gs).drop 1).dropLast = innerText gs := by simp [ipv6Text_eq]
  unfold bracketed
  rw [hlast, hinner, ipv6?_innerText h]
  rfl

end PartDepot.Host
