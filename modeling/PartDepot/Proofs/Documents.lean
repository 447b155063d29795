import PartDepot.Proofs.Collections

/-!
# Documents read back

A document has no characters that a reader refuses, and the node that is read from it is the node of
the tree that was written.
-/

namespace PartDepot.Yaml

/-! ## The characters of a document -/

theorem isAllowed_of_isPrintable {c : Char} (h : isPrintable c = true) : isAllowed c = true := by
  simp only [isPrintable, isAllowed, Bool.or_eq_true, Bool.and_eq_true, decide_eq_true_eq,
    beq_iff_eq] at h ⊢
  omega

theorem mem_singleBody {indent : Nat} {c : Char} {cs : List Char} {broken : Bool}
    (hc : c ∈ singleBody indent broken cs) : c = ' ' ∨ c = '\'' ∨ c ∈ cs := by
  induction cs generalizing broken with
  | nil =>
      cases broken <;> simp [singleBody, indentation] at hc
      exact .inl hc.2
  | cons d ds ih =>
      rw [singleBody] at hc
      split at hc
      · rcases List.mem_cons.mp hc with rfl | hc
        · simp
        · exact (ih hc).imp_right (Or.imp_right (List.mem_cons_of_mem _))
      · simp only [List.mem_append] at hc
        obtain (hc | hc) | hc := hc
        · split at hc <;> simp [indentation] at hc
          exact .inl hc.2
        · split at hc <;> simp_all
        · exact (ih hc).imp_right (Or.imp_right (List.mem_cons_of_mem _))

theorem mem_literalBody {indent : Nat} {c : Char} {cs : List Char} {broken : Bool}
    (hc : c ∈ literalBody indent broken cs) : c = ' ' ∨ c ∈ cs := by
  induction cs generalizing broken with
  | nil => simp [literalBody] at hc
  | cons d ds ih =>
      rw [literalBody] at hc
      split at hc
      · rcases List.mem_cons.mp hc with rfl | hc
        · simp
        · exact (ih hc).imp_right (List.mem_cons_of_mem _)
      · rcases List.mem_append.mp hc with hc | hc
        · split at hc <;> simp [indentation] at hc
          exact .inl hc.2
        · rcases List.mem_cons.mp hc with rfl | hc
          · simp
          · exact (ih hc).imp_right (List.mem_cons_of_mem _)

theorem isAllowed_upperHex {w n : Nat} {c : Char} (hc : c ∈ Text.upperHex w n) :
    isAllowed c = true := by
  induction w generalizing n with
  | zero => simp [Text.upperHex] at hc
  | succ w ih =>
      have hdigits : ∀ d ∈ List.range 16, isAllowed (Text.upperHexDigit d) = true := by decide
      rcases List.mem_append.mp hc with hc | hc
      · exact ih hc
      · rw [List.mem_singleton.mp hc]
        exact hdigits _ (List.mem_range.mpr (Nat.mod_lt _ (by decide)))

theorem isAllowed_doubleChar {c d : Char} (hd : d ∈ doubleChar c) : isAllowed d = true := by
  have hletter {e : Char} {r : Escape} (he : escape? e = some r) : isAllowed e = true := by
    unfold escape? at he
    split at he <;> first | decide | cases he
  obtain ⟨hform, hprint, -⟩ | ⟨e, hform, -, he⟩ | ⟨e, w, hform, -, he, -, -⟩ := doubleChar_cases c
  · rw [hform, List.mem_singleton] at hd
    rw [hd]
    exact isAllowed_of_isPrintable hprint
  · rw [hform] at hd
    simp only [List.mem_cons, List.not_mem_nil, or_false] at hd
    rcases hd with rfl | rfl
    · decide
    · exact hletter he
  · rw [hform] at hd
    rcases List.mem_cons.mp hd with rfl | hd
    · decide
    rcases List.mem_cons.mp hd with rfl | hd
    · exact hletter he
    · exact isAllowed_upperHex hd

theorem isAllowed_blockHints {s : List Char} {c : Char} (hc : c ∈ blockHints s) :
    isAllowed c = true := by
  simp only [blockHints, List.mem_append] at hc
  rcases hc with hc | hc
  · split at hc <;> simp at hc
    rw [hc]
    decide
  · split at hc
    · rw [List.mem_singleton.mp hc]
      decide
    · split at hc
      · rw [List.mem_singleton.mp hc]
        decide
      · split at hc
        · rw [List.mem_singleton.mp hc]
          decide
        · split at hc <;> simp at hc
          rw [hc]
          decide

theorem isAllowed_renderText {indent : Nat} {s : String} {c : Char} (hc : c ∈ renderText indent s) :
    isAllowed c = true := by
  cases hform : form s with
  | plain =>
      obtain ⟨d, ds, hchars, h⟩ := standsPlain_of_form hform
      simp only [renderText, hform, hchars, List.mem_append, List.mem_singleton] at hc
      rcases hc with hc | rfl
      · exact isAllowed_of_isPrintable (h.printable c hc).1
      · decide
  | single =>
      have hprint := (special_eq_false (form_single hform).2.2).2
      simp only [renderText, hform, List.mem_cons, List.mem_append, List.not_mem_nil,
        or_false] at hc
      obtain (rfl | hc) | rfl | rfl := hc
      · decide
      · rcases mem_singleBody hc with rfl | rfl | hc
        · decide
        · decide
        · exact isAllowed_of_isPrintable (hprint c hc)
      · decide
      · decide
  | double =>
      simp only [renderText, hform, List.mem_cons, List.mem_append, List.mem_flatMap,
        List.not_mem_nil, or_false] at hc
      obtain (rfl | ⟨d, -, hc⟩) | rfl | rfl := hc
      · decide
      · exact isAllowed_doubleChar hc
      · decide
      · decide
  | literal =>
      have hprint := (form_literal hform).2
      have hbody : ∀ c ∈ '|' :: blockHints s.toList ++ '\n' :: literalBody indent true s.toList,
          isAllowed c = true := by
        intro c hc
        rcases List.mem_append.mp hc with hc | hc
        · rcases List.mem_cons.mp hc with rfl | hc
          · decide
          · exact isAllowed_blockHints hc
        · rcases List.mem_cons.mp hc with rfl | hc
          · decide
          · rcases mem_literalBody hc with rfl | hc
            · decide
            · exact isAllowed_of_isPrintable (hprint c hc)
      simp only [renderText, hform] at hc
      split at hc
      · exact hbody c hc
      · rcases List.mem_append.mp hc with hc | hc
        · exact hbody c hc
        · rw [List.mem_singleton.mp hc]
          decide

theorem all_isAllowed_indentation (n : Nat) : (indentation n).all isAllowed = true := by
  apply List.all_eq_true.mpr
  intro c hc
  rw [List.eq_of_mem_replicate hc]
  decide

theorem all_isAllowed_renderKey (indent : Nat) (key : String) :
    (renderKey indent key).all isAllowed = true := by
  have htext : (renderText (indent + 2) key).all isAllowed = true :=
    List.all_eq_true.mpr fun c => isAllowed_renderText
  rw [renderKey]
  split
  · have hline : (renderText (indent + 2) key).dropLast.all isAllowed = true :=
      List.all_eq_true.mpr fun c hc => List.all_eq_true.mp htext c (List.dropLast_subset _ hc)
    rw [List.all_append, hline]
    decide
  · rw [List.all_append, List.all_append, List.all_cons, List.all_cons, htext,
      all_isAllowed_indentation]
    decide

mutual

theorem all_isAllowed_renderValue : ∀ t : Tree, t.Readable → ∀ (indent : Nat) (inline : Bool),
    (renderValue indent inline t).all isAllowed = true
  | .plain t, ⟨d, ds, hchars, h⟩, indent, inline => by
      have htext : t.toList.all isAllowed = true := by
        rw [hchars]
        exact List.all_eq_true.mpr fun c hc => isAllowed_of_isPrintable (h.printable c hc).1
      rw [renderValue, List.all_append, List.all_cons, htext]
      decide
  | .text s, _, indent, inline => by
      have htext : (renderText (indent + 2) s).all isAllowed = true :=
        List.all_eq_true.mpr fun c => isAllowed_renderText
      rw [renderValue, List.all_cons, htext]
      decide
  | .list [], _, _, _ => by rw [renderValue]; decide
  | .mapping [], _, _, _ => by rw [renderValue]; decide
  | .list (item :: rest), ht, indent, inline => by
      have hitems := fun column => all_isAllowed_renderItems (item :: rest) ht column
      rw [renderValue]
      · split
        · rw [List.all_cons, hitems]
          decide
        · rw [List.all_append, List.all_cons, hitems, all_isAllowed_indentation]
          decide
      · simp
  | .mapping (entry :: rest), ht, indent, inline => by
      have hentries := fun column => all_isAllowed_renderEntries (entry :: rest) ht column
      rw [renderValue]
      · split
        · rw [List.all_cons, hentries]
          decide
        · rw [List.all_append, List.all_cons, hentries, all_isAllowed_indentation]
          decide
      · simp

theorem all_isAllowed_renderItems : ∀ items : List Tree, ReadableItems items → ∀ indent : Nat,
    (renderItems indent items).all isAllowed = true
  | [], _, _ => rfl
  | [item], ⟨hitem, _⟩, indent => by
      rw [renderItems, List.all_cons, all_isAllowed_renderValue item hitem]
      decide
  | item :: next :: rest, ⟨hitem, hrest⟩, indent => by
      rw [renderItems_cons indent item (List.cons_ne_nil next rest), List.all_cons, List.all_append,
        List.all_append, all_isAllowed_renderValue item hitem, all_isAllowed_indentation,
        all_isAllowed_renderItems (next :: rest) hrest]
      decide

theorem all_isAllowed_renderEntries : ∀ entries : List (String × Tree), ReadableEntries entries →
    ∀ indent : Nat, (renderEntries indent entries).all isAllowed = true
  | [], _, _ => rfl
  | [(key, value)], ⟨hvalue, _⟩, indent => by
      rw [renderEntries, List.all_append, all_isAllowed_renderKey,
        all_isAllowed_renderValue value hvalue]
      rfl
  | (key, value) :: next :: rest, ⟨hvalue, hrest⟩, indent => by
      rw [renderEntries, List.all_append, List.all_append, List.all_append,
        all_isAllowed_renderKey, all_isAllowed_renderValue value hvalue, all_isAllowed_indentation,
        all_isAllowed_renderEntries (next :: rest) hrest]
      · rfl
      · simp

end

/-- A document is read back as the node of its tree. -/
theorem parse_renderDocument {entries : List (String × Tree)} (hnil : entries ≠ [])
    (hentries : ReadableEntries entries) :
    parse (renderDocument entries) = some (Tree.mapping entries).node := by
  obtain ⟨key, v, hv, htext⟩ := renderEntries_head hnil 0 []
  have hallowed := all_isAllowed_renderEntries entries hentries 0
  have htoken := isToken_renderKey 0 key v
  have hne := List.append_ne_nil_of_left_ne_nil (renderKey_ne_nil 0 key) v
  obtain ⟨-, -, -, hblock, hproperty⟩ := renderKey_signs 0 key v .start true
  obtain ⟨fuel, hfuel⟩ : ∃ f, fuelFor (renderEntries 0 entries) = f + 3 := ⟨_, rfl⟩
  have hread (f : Nat) (hf : fuel + 1 ≤ f) := readEntries_renderEntries entries hnil hentries 0 .nil
    (Nat.le_refl 0) (.inr rfl) _ 0
    (Cursor.lands_of_token (isToken_renderEntries hnil 0 []).1.solid (m := .start) rfl
      (Nat.le_refl 0)) f
    (by
      simp only [fuelFor] at hfuel
      omega)
  rw [htext] at hread
  obtain ⟨last, hread, m, hm, hl, hlast⟩ := readPlaced_key hv (m := .start)
    (show (-1 : Int) ≤ Mark.start.column by decide) hread
  rw [List.append_nil] at htext
  rw [htext] at hallowed hfuel
  have hpass : Cursor.pass false ⟨renderKey 0 key ++ v, .start, true, {}⟩ =
      ⟨renderKey 0 key ++ v, .start, true, {}⟩ := by
    simp [Cursor.pass, passGap_solid htoken.solid]
  have hnode := readBlockNode_placed hpass (atBoundary_of_isToken htoken hne _ _)
    (atDirective_of_isToken htoken _ _) hblock hproperty
    (show (-1 : Int) < Mark.start.column by decide) false (fuel + 2)
  rw [show Mark.start.column = 0 from rfl] at hread
  rw [hread] at hnode
  rw [parse, renderDocument, String.toList_ofList, htext]
  generalize renderKey 0 key ++ v = s at *
  have hmark : ¬ s.head? = some '\uFEFF' := fun h => (htoken.solid _ h).2.2.2 rfl
  have hallowed' : ∀ c ∈ s, isAllowed c = true := List.all_eq_true.mp hallowed
  simpa [hmark, hfuel, readDirectives, hpass, atDirective_of_isToken htoken,
    atBoundary_of_isToken htoken hne, hnode, endsDocument, hlast, Tree.node] using hallowed'

end PartDepot.Yaml
