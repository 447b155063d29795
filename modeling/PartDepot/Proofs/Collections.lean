import PartDepot.Proofs.Keys

/-!
# Collections read back

The text of a tree is read back as the node of the tree.  A value, the items of a list and
the members of a mapping call each other as the writer and the reader do, so the statements
about them go by one mutual induction on the tree.  Each says where the next token is found,
and how much fuel is enough.
-/

namespace PartDepot.Yaml

/-! ## Items of a list -/

section Items

variable {column : Nat} {inMapping : Bool} {v : List Char} {m : Mark} {k : Bool} {fuel l n : Nat}
  {item : Node} {token : List Char}

/-- An item with another item behind it. -/
theorem readDashes_item (hvalue : ∃ after, readBlockNode fuel column false ⟨v, m.skip 1, true, {}⟩ =
      some (item, after) ∧ after.Lands l column token)
    (htoken : IsToken token) (hdash : startsDash token = true) {items : List Node}
    {P : Cursor → Prop} (hrest : ∀ m' : Mark, m'.column = column → l ≤ m'.line → ∃ last,
      readDashes fuel column inMapping ⟨token, m', true, {}⟩ = some (items, last) ∧ P last) :
    ∃ last, readDashes (fuel + 1) column inMapping ⟨'-' :: v, m, k, {}⟩ =
      some (item :: items, last) ∧ P last := by
  obtain ⟨after, hread, m', hm', hl, hpass⟩ := hvalue
  obtain ⟨last, hitems, hlast⟩ := hrest m' hm' hl
  have hnil : token ≠ [] := by
    rintro rfl
    cases hdash
  have hdash' : (⟨token, m', true, {}⟩ : Cursor).atDash = true := hdash
  refine ⟨last, ?_, hlast⟩
  rw [readDashes]
  simp [Cursor.skip, Cursor.withKey, hread, hpass, atDirective_of_isToken htoken,
    atBoundary_of_isToken htoken hnil, hm', hdash', hitems]

/-- The last item of a list, with a token behind it that cannot belong to the list. -/
theorem readDashes_last (hvalue : ∃ after, readBlockNode fuel column false ⟨v, m.skip 1, true, {}⟩ =
      some (item, after) ∧ after.Lands l n token) (htoken : IsToken token)
    (hend : n < column ∨ token = [] ∨ inMapping = true ∧ n = column ∧ startsDash token = false) :
    ∃ last, readDashes (fuel + 1) column inMapping ⟨'-' :: v, m, k, {}⟩ = some ([item], last) ∧
      last.Lands l n token := by
  obtain ⟨after, hread, m', hm', hl, hpass⟩ := hvalue
  refine ⟨⟨token, m', true, {}⟩, ?_, Cursor.lands_of_token htoken.solid hm' hl⟩
  rw [readDashes]
  obtain hlt | rfl | ⟨rfl, rfl, hdash⟩ := hend
  · simp [Cursor.skip, Cursor.withKey, hread, hpass, atDirective_of_isToken htoken, hm', hlt]
  · simp [Cursor.skip, Cursor.withKey, hread, hpass, atDirective_of_isToken htoken,
      Cursor.atBoundary]
  · have hdash' : (⟨token, m', true, {}⟩ : Cursor).atDash = false := hdash
    simp [Cursor.skip, Cursor.withKey, hread, hpass, atDirective_of_isToken htoken, hdash']

end Items

theorem readPlaced_dash {c after : Cursor} {items : List Node} {fuel : Nat}
    (hdash : c.atDash = true) (hkey : c.keyOk = true)
    (hitems : readDashes fuel c.mark.column false c = some (items, after)) (parent : Int) :
    readPlaced (fuel + 1) parent [] c = some (.sequence {} items, after) := by
  rw [readPlaced]
  simp [hdash, hkey, hitems, Props.ofList?]

/-- The items of a list at the column of the mapping that it is a member of. -/
theorem readBlockNode_dash {c c' after : Cursor} {items : List Node} {fuel : Nat}
    (hpass : c.pass false = c') (hdash : c'.atDash = true) (hboundary : c'.atBoundary = false)
    (hitems : readDashes fuel c'.mark.column true c' = some (items, after)) :
    readBlockNode (fuel + 1) c'.mark.column true c = some (.sequence {} items, after) := by
  have hhead : c'.rest.head? = some '-' := by
    simp only [Cursor.atDash, Bool.and_eq_true, beq_iff_eq] at hdash
    exact hdash.1
  rw [readBlockNode]
  simp [hpass, hdash, hboundary, hitems, Cursor.atDirective, Cursor.atBlockScalar, hhead,
    Props.ofList?]

theorem readAtom_emptyList (parent : Int) (rest : List Char) {m : Mark} (k : Bool) (fuel : Nat) :
    readAtom (fuel + 2) false parent ⟨'[' :: ']' :: rest, m, k, {}⟩ =
      some (.sequence {} [], ⟨rest, m.skip 2, false, {}⟩) := by
  rw [readAtom]
  simp [readFlowItems, Cursor.skip, Cursor.withKey, Cursor.pass, passGap, isBreak,
    Cursor.atBoundary, Cursor.atDirective, atMarker, startsMarker, Mark.skip]

theorem readAtom_emptyMapping (parent : Int) (rest : List Char) {m : Mark} (k : Bool) (fuel : Nat) :
    readAtom (fuel + 2) false parent ⟨'\x7b' :: '\x7d' :: rest, m, k, {}⟩ =
      some (.mapping {} [], ⟨rest, m.skip 2, false, {}⟩) := by
  rw [readAtom]
  simp [readFlowEntries, Cursor.skip, Cursor.withKey, Cursor.pass, passGap, isBreak,
    Cursor.atBoundary, Cursor.atDirective, atMarker, startsMarker, Mark.skip]

/-! ## Trees -/

mutual

/-- The node that is written as a tree. -/
def Tree.node : Tree → Node
  | .plain t => .scalar {} true t
  | .text s => .scalar {} (form s == .plain) s
  | .list items => .sequence {} (itemNodes items)
  | .mapping entries => .mapping {} (entryNodes entries)

def itemNodes : List Tree → List Node
  | [] => []
  | item :: rest => item.node :: itemNodes rest

def entryNodes : List (String × Tree) → List (Node × Node)
  | [] => []
  | (key, value) :: rest => (.scalar {} (form key == .plain) key, value.node) :: entryNodes rest

end

mutual

/-- Plain texts may stand plain. -/
def Tree.Readable : Tree → Prop
  | .plain t => ∃ c cs, t.toList = c :: cs ∧ StandsPlain c cs
  | .text _ => True
  | .list items => ReadableItems items
  | .mapping entries => ReadableEntries entries

def ReadableItems : List Tree → Prop
  | [] => True
  | item :: rest => item.Readable ∧ ReadableItems rest

def ReadableEntries : List (String × Tree) → Prop
  | [] => True
  | (_, value) :: rest => value.Readable ∧ ReadableEntries rest

end

theorem renderValue_head (indent : Nat) (inline : Bool) (t : Tree) (rest : List Char) :
    isGap (renderValue indent inline t ++ rest).head? = true := by
  match t with
  | .plain _ | .text _ | .list [] | .mapping [] => simp [renderValue, isGap, isSpaceOrTab]
  | .list (_ :: _) | .mapping (_ :: _) => 
    simp only [renderValue]
    split <;> simp [isGap, isSpaceOrTab, isBreak]

theorem isToken_dash {v : List Char} (hv : isGap v.head? = true) :
    IsToken ('-' :: v) ∧ startsDash ('-' :: v) = true := by
  refine ⟨⟨?_, by simp, ?_⟩, by simpa [startsDash] using hv⟩
  · rintro d ⟨⟩
    decide
  · cases v with
    | nil => rfl
    | cons c cs =>
        have hc : c ≠ '-' := by
          rintro rfl
          simp [isGap, isSpaceOrTab, isBreak] at hv
        simp [startsMarker, hc]

theorem head_of_startsDash {token : List Char} (hdash : startsDash token = true) :
    ∃ v, token = '-' :: v := by
  cases token with
  | nil => cases hdash
  | cons c v =>
      simp only [Yaml.startsDash, List.head?_cons, Bool.and_eq_true, beq_iff_eq,
        Option.some.injEq] at hdash
      exact ⟨v, by rw [hdash.1]⟩

/-- A value on the line below its key: a collection starts there. -/
theorem pass_newline {token : List Char} (htoken : IsToken token) (n : Nat) (m : Mark) (k : Bool) :
    Cursor.pass false ⟨'\n' :: (indentation n ++ token), m, k, {}⟩ =
      ⟨token, (m.newline 1).skip n, true, {}⟩ := by
  simp [Cursor.pass, passGap, isBreak, passGap_indentation htoken.solid]

theorem pass_space {token : List Char} (htoken : IsToken token) (m : Mark) (k : Bool) :
    Cursor.pass false ⟨' ' :: token, m, k, {}⟩ = ⟨token, m.next, k, {}⟩ := by
  simp [Cursor.pass, passGap_space, passGap_solid htoken.solid]

/-- The items of a list behind the sign that the list belongs to. -/
theorem readBlockNode_items_inline {text : List Char} (htoken : IsToken text)
    (hdash : startsDash text = true) {indent : Nat} {m : Mark} (hm : m.column = indent + 1)
    {fuel : Nat} {items : List Node} {after : Cursor}
    (hitems : readDashes fuel (indent + 2) false ⟨text, m.next, true, {}⟩ = some (items, after))
    (list : Bool) :
    readBlockNode (fuel + 2) indent list ⟨' ' :: text, m, true, {}⟩ =
      some (.sequence {} items, after) := by
  have hm' : m.next.column = indent + 2 := by simp [Mark.next, hm]
  have hpass := pass_space htoken m true
  obtain ⟨v, rfl⟩ := head_of_startsDash hdash
  rw [readBlockNode_placed_cons hpass (by omega) (by decide) (by omega)]
  have hdash' : (⟨'-' :: v, m.next, true, {}⟩ : Cursor).atDash = true := hdash
  exact readPlaced_dash hdash' rfl (by rw [hm']; exact hitems) indent

/-- The items of a list below the key that the list belongs to. -/
theorem readBlockNode_items_below {text : List Char} (htoken : IsToken text)
    (hdash : startsDash text = true) {indent : Nat} {m : Mark} {fuel : Nat} {items : List Node}
    {after : Cursor}
    (hitems : readDashes fuel indent true ⟨text, (m.newline 1).skip indent, true, {}⟩ =
      some (items, after)) (k : Bool) :
    readBlockNode (fuel + 1) indent true ⟨'\n' :: (indentation indent ++ text), m, k, {}⟩ =
      some (.sequence {} items, after) := by
  have hm : ((m.newline 1).skip indent).column = indent := by simp [Mark.newline, Mark.skip]
  have htext : text ≠ [] := by
    rintro rfl
    cases hdash
  have hread := readBlockNode_dash (pass_newline htoken indent m k) hdash
    (atBoundary_of_isToken htoken htext _ _) (by rw [hm]; exact hitems)
  rwa [hm] at hread

theorem renderEntries_cons (column : Nat) (key : String) (value : Tree)
    {rest : List (String × Tree)} (hrest : rest ≠ []) :
    renderEntries column ((key, value) :: rest) = renderKey column key ++
      (renderValue column (!isSimpleKey key) value ++
        (indentation column ++ renderEntries column rest)) := by
  cases rest with
  | nil => exact absurd rfl hrest
  | cons next rest => simp [renderEntries]

/-- The members of a mapping start with a key. -/
theorem renderEntries_head {entries : List (String × Tree)} (hnil : entries ≠ []) (column : Nat)
    (tail : List Char) :
    ∃ key v, isGap v.head? = true ∧
      renderEntries column entries ++ tail = renderKey column key ++ v := by
  match entries with
  | [] => exact absurd rfl hnil
  | [(key, value)] =>
    exact ⟨key, _, renderValue_head column (!isSimpleKey key) value tail, by simp [renderEntries]⟩
  | (key, value) :: next :: rest =>
    rw [renderEntries_cons column key value (List.cons_ne_nil next rest), List.append_assoc,
      List.append_assoc]
    exact ⟨key, _, renderValue_head column (!isSimpleKey key) value _, rfl⟩

theorem isToken_renderEntries {entries : List (String × Tree)} (hnil : entries ≠ []) (column : Nat)
    (tail : List Char) :
    IsToken (renderEntries column entries ++ tail) ∧
      startsDash (renderEntries column entries ++ tail) = false := by
  obtain ⟨key, v, -, htext⟩ := renderEntries_head hnil column tail
  rw [htext]
  exact ⟨isToken_renderKey column key v, (renderKey_signs column key v .start true).1⟩

/-- On the line of its sign or on the next one, the first key of a mapping stands two
columns further. -/
theorem pass_entries {entries : List (String × Tree)} (hnil : entries ≠ []) {indent : Nat}
    {inline : Bool} {m : Mark} {k : Bool}
    (hinline : inline = true → m.column = indent + 1 ∧ k = true) (tail : List Char) :
    ∃ m' : Mark, m'.column = indent + 2 ∧ m.line ≤ m'.line ∧
      Cursor.pass false ⟨renderValue indent inline (.mapping entries) ++ tail, m, k, {}⟩ =
        ⟨renderEntries (indent + 2) entries ++ tail, m', true, {}⟩ := by
  obtain ⟨htoken, -⟩ := isToken_renderEntries hnil (indent + 2) tail
  obtain ⟨entry, rest, rfl⟩ := List.exists_cons_of_ne_nil hnil
  cases inline with
  | true =>
      obtain ⟨hcolumn, rfl⟩ := hinline rfl
      refine ⟨m.next, by simp [Mark.next, hcolumn], Nat.le_refl _, ?_⟩
      simpa [renderValue] using pass_space htoken m true
  | false =>
      refine ⟨(m.newline 1).skip (indent + 2), by simp [Mark.newline, Mark.skip],
        Nat.le_succ m.line, ?_⟩
      simpa [renderValue] using pass_newline htoken (indent + 2) m k

theorem length_renderEntries_lt {entries : List (String × Tree)} (hnil : entries ≠ [])
    (indent : Nat) (inline : Bool) :
    (renderEntries (indent + 2) entries).length <
      (renderValue indent inline (.mapping entries)).length := by
  obtain ⟨entry, rest, rfl⟩ := List.exists_cons_of_ne_nil hnil
  cases inline with
  | true => simp [renderValue]
  | false =>
      simp [renderValue]
      omega

/-- A mapping is read as its members are, from the first key on. -/
theorem readBlockNode_entries {entries : List (String × Tree)} (hnil : entries ≠ []) {indent : Nat}
    {tail : List Char} {c : Cursor} {m : Mark} (hm : m.column = indent + 2)
    (hpass : c.pass false = ⟨renderEntries (indent + 2) entries ++ tail, m, true, {}⟩) {fuel : Nat}
    {nodes : List (Node × Node)} {P : Cursor → Prop}
    (hentries : ∀ f, fuel + 1 ≤ f → ∃ last, readEntries f (indent + 2)
      ⟨renderEntries (indent + 2) entries ++ tail, m, true, {}⟩ = some (nodes, last) ∧ P last)
    (list : Bool) :
    ∃ last, readBlockNode (fuel + 3) indent list c = some (.mapping {} nodes, last) ∧ P last := by
  obtain ⟨key, v, hv, htext⟩ := renderEntries_head hnil (indent + 2) tail
  rw [htext] at hpass hentries
  obtain ⟨-, -, -, hblock, hproperty⟩ := renderKey_signs (indent + 2) key v m true
  have htoken := isToken_renderKey (indent + 2) key v
  have hne := List.append_ne_nil_of_left_ne_nil (renderKey_ne_nil (indent + 2) key) v
  rw [← hm] at hentries
  obtain ⟨last, hread, hlast⟩ :=
    readPlaced_key hv (show (indent : Int) ≤ m.column by omega) hentries
  refine ⟨last, ?_, hlast⟩
  rw [hm] at hread
  rw [readBlockNode_placed hpass (atBoundary_of_isToken htoken hne _ _)
    (atDirective_of_isToken htoken _ _) hblock hproperty (by simp only [hm]; omega), hread]

theorem renderItems_cons (column : Nat) (item : Tree) {rest : List Tree} (hrest : rest ≠ []) :
    renderItems column (item :: rest) =
      '-' :: (renderValue column true item ++ (indentation column ++ renderItems column rest)) := by
  cases rest with
  | nil => exact absurd rfl hrest
  | cons next rest => simp [renderItems]

theorem isToken_renderItems {items : List Tree} (hnil : items ≠ []) (column : Nat)
    (tail : List Char) :
    IsToken (renderItems column items ++ tail) ∧
      startsDash (renderItems column items ++ tail) = true := by
  match items with
  | [] => exact absurd rfl hnil
  | [item] => exact isToken_dash (renderValue_head column true item tail)
  | item :: next :: rest =>
    rw [renderItems_cons column item (List.cons_ne_nil next rest), List.cons_append,
      List.append_assoc]
    exact isToken_dash (renderValue_head column true item _)

mutual

theorem readBlockNode_renderValue : ∀ (t : Tree), t.Readable → ∀ (indent : Nat) (inline : Bool)
    {n : Nat} {token : List Char}, IsToken token → n ≤ indent → ∀ m : Mark, indent ≤ m.column →
    ∀ k list : Bool, (inline = true → m.column = indent + 1 ∧ k = true) →
    (inline = false → list = true ∧ (n = indent → startsDash token = false)) → ∀ fuel : Nat,
    4 * (renderValue indent inline t).length + 4 ≤ fuel → ∃ after, readBlockNode fuel indent list
      ⟨renderValue indent inline t ++ (indentation n ++ token), m, k, {}⟩ = some (t.node, after) ∧
        after.Lands (m.line + 1) n token
  | .plain t, ht, indent, inline, n, token, htoken, hn, m, hm, k, list, _, _, fuel, hfuel => by
      obtain ⟨c, cs, hchars, h⟩ := ht
      obtain ⟨fuel, rfl⟩ : ∃ f, fuel = f + 3 := ⟨fuel - 3, by omega⟩
      have htext : String.ofList (c :: cs) = t := by rw [← hchars, String.ofList_toList]
      have hread := readBlockNode_plain htoken.solid hm k list fuel hn h
      rw [htext] at hread
      simpa [renderValue, hchars, Tree.node] using hread
  | .text s, _, indent, inline, n, token, htoken, hn, m, hm, k, list, _, _, fuel, hfuel => by
      obtain ⟨fuel, rfl⟩ : ∃ f, fuel = f + 3 := ⟨fuel - 3, by omega⟩
      have hread := readBlockNode_renderText htoken.solid hm k list fuel hn s
      simpa [renderValue, Tree.node] using hread
  | .list [], _, indent, inline, n, token, htoken, _, m, hm, k, list, _, _, fuel, hfuel => by
      obtain ⟨fuel, rfl⟩ : ∃ f, fuel = f + 4 := ⟨fuel - 4, by omega⟩
      have hl : m.line ≤ (m.next.skip 2).line := Nat.le_refl _
      exact readBlockNode_closed htoken.solid hm k list (fuel + 1) (q := '[') (by decide) _ rfl hl
        (readAtom_emptyList indent _ k fuel)
  | .mapping [], _, indent, inline, n, token, htoken, _, m, hm, k, list, _, _, fuel, hfuel => by
      obtain ⟨fuel, rfl⟩ : ∃ f, fuel = f + 4 := ⟨fuel - 4, by omega⟩
      have hl : m.line ≤ (m.next.skip 2).line := Nat.le_refl _
      exact readBlockNode_closed htoken.solid hm k list (fuel + 1) (q := '\x7b') (by decide)
        _ rfl hl (readAtom_emptyMapping indent _ k fuel)
  | .list (item :: rest), ht, indent, true, n, token, htoken, hn, m, hm, k, list, hinline, _, fuel,
      hfuel => by
      obtain ⟨fuel, rfl⟩ : ∃ f, fuel = f + 2 := ⟨fuel - 2, by omega⟩
      obtain ⟨hcolumn, rfl⟩ := hinline rfl
      have hnil : item :: rest ≠ [] := List.cons_ne_nil item rest
      obtain ⟨htoken', hdash⟩ := isToken_renderItems hnil (indent + 2) (indentation n ++ token)
      simp only [renderValue, if_true, List.length_cons] at hfuel
      have hlt : n < indent + 2 := by omega
      obtain ⟨last, hitems, hlast⟩ := readDashes_renderItems (item :: rest) hnil ht
        (indent + 2) false htoken (Nat.le_of_lt hlt) (.inl hlt) m.next
        (by simp [Mark.next, hcolumn]) true fuel (by omega)
      refine ⟨last, ?_, hlast⟩
      simpa [renderValue, Tree.node] using
        readBlockNode_items_inline htoken' hdash hcolumn hitems list
  | .list (item :: rest), ht, indent, false, n, token, htoken, hn, m, hm, k, list, _, hbelow, fuel,
      hfuel => by
      obtain ⟨fuel, rfl⟩ : ∃ f, fuel = f + 1 := ⟨fuel - 1, by omega⟩
      obtain ⟨rfl, hend⟩ := hbelow rfl
      have hnil : item :: rest ≠ [] := List.cons_ne_nil item rest
      obtain ⟨htoken', hdash⟩ := isToken_renderItems hnil indent (indentation n ++ token)
      simp only [renderValue, Bool.false_eq_true, if_false, List.length_cons,
        List.length_append] at hfuel
      have hbehind : n < indent ∨ token = [] ∨ true = true ∧ n = indent ∧
          startsDash token = false := by
        rcases Nat.lt_or_eq_of_le hn with hlt | heq
        · exact .inl hlt
        · exact .inr (.inr ⟨rfl, heq, hend heq⟩)
      obtain ⟨last, hitems, hlast⟩ := readDashes_renderItems (item :: rest) hnil ht
        indent true htoken hn hbehind ((m.newline 1).skip indent)
        (by simp [Mark.newline, Mark.skip]) true fuel (by omega)
      refine ⟨last, ?_, hlast.mono (Nat.le_succ _)⟩
      simpa [renderValue, Tree.node] using readBlockNode_items_below htoken' hdash hitems k
  | .mapping (entry :: rest), ht, indent, inline, n, token, htoken, hn, m, hm, k, list, hinline,
      _, fuel, hfuel => by
      obtain ⟨fuel, rfl⟩ : ∃ f, fuel = f + 3 := ⟨fuel - 3, by omega⟩
      have hnil : entry :: rest ≠ [] := List.cons_ne_nil entry rest
      have hlength := length_renderEntries_lt hnil indent inline
      obtain ⟨htoken', -⟩ := isToken_renderEntries hnil (indent + 2) (indentation n ++ token)
      obtain ⟨m', hm', hl, hpass⟩ := pass_entries hnil hinline (indentation n ++ token)
      have hentries (f : Nat) (hf : fuel + 1 ≤ f) :=
        readEntries_renderEntries (entry :: rest) hnil ht
        (indent + 2) htoken (by omega) (.inl (by omega)) _ m'.line
        (Cursor.lands_of_token htoken'.solid hm' (Nat.le_refl _)) f (by omega)
      obtain ⟨last, hread, hlast⟩ := readBlockNode_entries hnil hm' hpass hentries list
      exact ⟨last, hread, hlast.mono (Nat.succ_le_succ hl)⟩

theorem readDashes_renderItems : ∀ items : List Tree, items ≠ [] → ReadableItems items →
    ∀ (column : Nat) (inMapping : Bool) {n : Nat} {token : List Char}, IsToken token → n ≤ column →
    (n < column ∨ token = [] ∨ inMapping = true ∧ n = column ∧ startsDash token = false) →
    ∀ m : Mark, m.column = column → ∀ (k : Bool) (fuel : Nat),
    4 * (renderItems column items).length + 4 ≤ fuel → ∃ after, readDashes fuel column inMapping
      ⟨renderItems column items ++ (indentation n ++ token), m, k, {}⟩ =
        some (itemNodes items, after) ∧
        after.Lands (m.line + 1) n token
  | [], hnil, _, _, _, _, _, _, _, _, _, _, _, _, _ => absurd rfl hnil
  | [item], _, ⟨hitem, _⟩, column, inMapping, n, token, htoken, hn, hend, m, hm, k, fuel,
      hfuel => by
      obtain ⟨fuel, rfl⟩ : ∃ f, fuel = f + 1 := ⟨fuel - 1, by omega⟩
      simp only [renderItems, List.length_cons] at hfuel
      have hread := readBlockNode_renderValue item hitem column true htoken hn (m.skip 1)
        (by simp [Mark.skip, hm]) true false (fun _ => ⟨by simp [Mark.skip, hm], rfl⟩)
        (by simp) fuel (by omega)
      exact readDashes_last hread htoken hend
  | item :: next :: rest, _, ⟨hitem, hrest⟩, column, inMapping, n, token, htoken, hn, hend,
      m, hm, k, fuel, hfuel => by
      obtain ⟨fuel, rfl⟩ : ∃ f, fuel = f + 1 := ⟨fuel - 1, by omega⟩
      have hnil : next :: rest ≠ [] := List.cons_ne_nil next rest
      obtain ⟨htoken', hdash'⟩ := isToken_renderItems hnil column (indentation n ++ token)
      rw [renderItems_cons column item hnil, List.length_cons, List.length_append,
        List.length_append] at hfuel
      rw [renderItems_cons column item hnil, List.cons_append, List.append_assoc, List.append_assoc]
      have hread := readBlockNode_renderValue item hitem column true htoken' (Nat.le_refl column)
        (m.skip 1) (by simp [Mark.skip, hm]) true false (fun _ => ⟨by simp [Mark.skip, hm], rfl⟩)
        (by simp) fuel (by omega)
      refine readDashes_item hread htoken' hdash' fun m' hm' hl => ?_
      obtain ⟨last, hitems, hlast⟩ := readDashes_renderItems (next :: rest) hnil hrest
        column inMapping htoken hn hend m' hm' true fuel (by omega)
      exact ⟨last, hitems, hlast.mono (Nat.le_succ_of_le hl)⟩

theorem readEntries_renderEntries : ∀ entries : List (String × Tree), entries ≠ [] →
    ReadableEntries entries → ∀ (column : Nat) {n : Nat} {token : List Char}, IsToken token →
    n ≤ column → (n < column ∨ token = []) → ∀ (c : Cursor) (l : Nat),
    c.Lands l column (renderEntries column entries ++ (indentation n ++ token)) → ∀ fuel : Nat,
    4 * (renderEntries column entries).length + 4 ≤ fuel → ∃ after,
      readEntries fuel column c = some (entryNodes entries, after) ∧ after.Lands (l + 1) n token
  | [], hnil, _, _, _, _, _, _, _, _, _, _, _, _ => absurd rfl hnil
  | [(key, value)], _, ⟨hvalue, _⟩, column, n, token, htoken, hn, hend, c, l, hc, fuel, hfuel => by
      obtain ⟨fuel, rfl⟩ : ∃ f, fuel = f + 4 := ⟨fuel - 4, by omega⟩
      have hkey := List.length_pos_of_ne_nil (renderKey_ne_nil column key)
      rw [renderEntries, List.append_assoc] at hc
      rw [renderEntries, List.length_append] at hfuel
      have hdash : n = column → startsDash token = false := by
        intro heq
        rw [hend.resolve_left (by omega)]
        rfl
      refine readEntries_key (renderValue_head column _ value _) hc (fun m k hm hl hquestion => ?_)
        fun after hafter => readEntries_end htoken hafter hend (fuel + 2)
      obtain ⟨after, hread, hlands⟩ := readBlockNode_renderValue value hvalue column
        (!isSimpleKey key) htoken hn m hm k true (by simpa using hquestion) (fun _ => ⟨rfl, hdash⟩)
        (fuel + 3) (by omega)
      exact ⟨after, hread, hlands.mono (Nat.succ_le_succ hl)⟩
  | (key, value) :: next :: rest, _, ⟨hvalue, hrest⟩, column, n, token, htoken, hn, hend, c, l, hc,
      fuel, hfuel => by
      obtain ⟨fuel, rfl⟩ : ∃ f, fuel = f + 4 := ⟨fuel - 4, by omega⟩
      have hkey := List.length_pos_of_ne_nil (renderKey_ne_nil column key)
      have hnil : next :: rest ≠ [] := List.cons_ne_nil next rest
      obtain ⟨htoken', hdash'⟩ := isToken_renderEntries hnil column (indentation n ++ token)
      rw [renderEntries_cons column key value hnil, List.append_assoc, List.append_assoc,
        List.append_assoc] at hc
      rw [renderEntries_cons column key value hnil, List.length_append, List.length_append,
        List.length_append] at hfuel
      obtain ⟨last, hread, hlast⟩ := readEntries_key (renderValue_head column _ value _) hc
        (fun m k hm hl hquestion =>
          have hvalue := readBlockNode_renderValue value hvalue column (!isSimpleKey key) htoken'
            (Nat.le_refl column) m hm k true (by simpa using hquestion)
            (fun _ => ⟨rfl, fun _ => hdash'⟩) (fuel + 3) (by omega)
          hvalue.imp fun after h => ⟨h.1, h.2.mono (Nat.succ_le_succ hl)⟩)
        fun after hafter =>
          readEntries_renderEntries (next :: rest) hnil hrest column htoken hn hend
          after (l + 1) hafter (fuel + 3) (by omega)
      exact ⟨last, hread, hlast.mono (Nat.le_succ _)⟩

end

end PartDepot.Yaml
