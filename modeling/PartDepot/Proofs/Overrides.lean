import Mathlib.Data.List.ReduceOption
import PartDepot.Gate

/-!
# Overrides as scopes

The value of a gate and the values its live guards bring back form a stack: an override
pushes a value, a set changes the top, and dropping the latest guard of the gate pops.
Everything below is read off the stack.
-/

namespace PartDepot

namespace Gates

/-- How a scope ends.  Its guards are dropped either way. -/
inductive Leaving where
  | returned
  | panicked
deriving DecidableEq

inductive Use where
  | new (offline : Bool)
  | clone (handle : Nat)
  | set (handle : Nat) (offline : Bool)
  | read (handle : Nat)
  | override (handle : Nat) (offline : Bool)
  | drop (guard : Nat) (leaving : Leaving)
  | panicScope (handle : Nat) (offline : Bool)
deriving DecidableEq

def step (g : Gates) : Use → Gates
  | .new offline => g.new offline
  | .clone handle => g.clone handle
  | .set handle offline => g.set handle offline
  | .read _ => g
  | .override handle offline => (g.override handle offline).2
  | .drop guard _ => (g.drop guard).2
  | .panicScope handle offline => g.panicScope handle offline

def run (g : Gates) (uses : List Use) : Gates := uses.foldl step g

@[simp] theorem run_nil (g : Gates) : g.run [] = g := rfl

@[simp] theorem run_cons (g : Gates) (use : Use) (uses : List Use) :
    g.run (use :: uses) = (g.step use).run uses := rfl

@[simp] theorem run_append (g : Gates) (before after : List Use) :
    g.run (before ++ after) = (g.run before).run after := List.foldl_append

/-! ## Live guards -/

/-- The guard of a number, unless it is dropped. -/
def guard? (g : Gates) (number : Nat) : Option Guard := g.guards[number]?.join

def guardsOn (gate : Nat) (places : List (Option Guard)) : List Guard :=
  places.reduceOption.filter (·.gate = gate)

/-- The live guards of a gate, the latest last. -/
def guardsOf (g : Gates) (gate : Nat) : List Guard := guardsOn gate g.guards

/-- No guard of a gate is dropped while a later one of the gate is alive. -/
def inOrder (g : Gates) : Use → Bool
  | .drop number _ =>
    (g.guard? number).all fun guard => (guardsOn guard.gate (g.guards.drop (number + 1))).isEmpty
  | _ => true

def nested (g : Gates) : List Use → Bool
  | [] => true
  | use :: rest => g.inOrder use && (g.step use).nested rest

/-- The values of a gate from the innermost scope outwards. -/
def scopes (g : Gates) (gate : Nat) : List Bool :=
  g.value gate :: ((g.guardsOf gate).map Guard.previous).reverse

@[simp] theorem guardsOn_nil (gate : Nat) : guardsOn gate [] = [] := rfl

@[simp] theorem guardsOn_none (gate : Nat) (places : List (Option Guard)) :
    guardsOn gate (none :: places) = guardsOn gate places := rfl

theorem guardsOn_some (gate : Nat) (guard : Guard) (places : List (Option Guard)) :
    guardsOn gate (some guard :: places) =
      (if guard.gate = gate then [guard] else []) ++ guardsOn gate places := by
  by_cases h : guard.gate = gate <;> simp [guardsOn, List.reduceOption_cons_of_some, h]

@[simp] theorem guardsOn_append (gate : Nat) (places more : List (Option Guard)) :
    guardsOn gate (places ++ more) = guardsOn gate places ++ guardsOn gate more := by
  simp [guardsOn, List.reduceOption_append]

theorem mem_guardsOn {gate : Nat} {places : List (Option Guard)} {guard : Guard} :
    guard ∈ guardsOn gate places ↔ some guard ∈ places ∧ guard.gate = gate := by
  simp [guardsOn, List.reduceOption_mem_iff]

section Place

variable {places : List (Option Guard)} {number : Nat} {guard : Guard}

/-- The guards of a gate, split at a live guard. -/
theorem guardsOn_split (h : places[number]? = some (some guard)) (gate : Nat) :
    guardsOn gate places = guardsOn gate (places.take number) ++
      ((if guard.gate = gate then [guard] else []) ++
        guardsOn gate (places.drop (number + 1))) := by
  obtain ⟨hlt, hget⟩ := List.getElem?_eq_some_iff.mp h
  rw [← guardsOn_some, ← guardsOn_append, ← hget, List.getElem_cons_drop, List.take_append_drop]

theorem guardsOn_set_none (h : places[number]? = some (some guard)) (gate : Nat) :
    guardsOn gate (places.set number none) =
      guardsOn gate (places.take number) ++ guardsOn gate (places.drop (number + 1)) := by
  obtain ⟨hlt, -⟩ := List.getElem?_eq_some_iff.mp h
  rw [List.set_eq_take_append_cons_drop, if_pos hlt, guardsOn_append, guardsOn_none]

end Place

theorem getElem?_of_guard? {g : Gates} {number : Nat} {guard : Guard}
    (h : g.guard? number = some guard) : g.guards[number]? = some (some guard) :=
  Option.join_eq_some_iff.mp h

theorem lt_of_guard? {g : Gates} {number : Nat} {guard : Guard} (h : g.guard? number = some guard) :
    number < g.guards.length := (List.getElem?_eq_some_iff.mp (getElem?_of_guard? h)).1

/-! ## Handles, values and gates that exist -/

/-- Handles and live guards stand on gates that exist. -/
structure Sound (g : Gates) : Prop where
  handles : g.handles ≠ []
  handle : ∀ gate ∈ g.handles, gate < g.values.length
  guard : ∀ guard, some guard ∈ g.guards → guard.gate < g.values.length

theorem single_sound (offline : Bool) : (single offline).Sound := by
  constructor <;> simp [single]

namespace Sound

variable {g : Gates}

theorem gateOf_lt (hg : g.Sound) (handle : Nat) : g.gateOf handle < g.values.length := by
  have hlt : handle % g.handles.length < g.handles.length :=
    Nat.mod_lt _ (List.length_pos_iff.mpr hg.handles)
  simpa [gateOf, List.getElem?_eq_getElem hlt] using hg.handle _ (List.getElem_mem hlt)

theorem guard?_lt (hg : g.Sound) {number : Nat} {guard : Guard} (h : g.guard? number = some guard) :
    guard.gate < g.values.length := hg.guard guard (List.mem_of_getElem? (getElem?_of_guard? h))

theorem guardsOf_fresh (hg : g.Sound) : g.guardsOf g.values.length = [] := by
  refine List.eq_nil_iff_forall_not_mem.mpr fun guard hguard => ?_
  obtain ⟨hmem, hgate⟩ := mem_guardsOn.mp hguard
  exact absurd (hg.guard guard hmem) (by omega)

end Sound

theorem value_setGate (g : Gates) (gate other : Nat) (offline : Bool) (h : gate < g.values.length) :
    (g.setGate gate offline).value other = if gate = other then offline else g.value other := by
  by_cases hne : gate = other
  · subst hne
    simp [value, setGate, h]
  · simp [value, setGate, hne]

theorem value_new (g : Gates) (gate : Nat) (offline : Bool) :
    (g.new offline).value gate = if gate = g.values.length then offline else g.value gate := by
  by_cases heq : gate = g.values.length
  · subst heq
    simp [value, new]
  · rcases Nat.lt_or_gt_of_ne heq with hlt | hgt
    · simp [value, new, heq, List.getElem?_append_left hlt]
    · have hpast : (g.values ++ [offline]).length ≤ gate := by simp; omega
      simp [value, new, heq, List.getElem?_eq_none hpast, List.getElem?_eq_none (Nat.le_of_lt hgt)]

theorem gateOf_of_lt {g : Gates} {handle : Nat} (h : handle < g.handles.length) :
    g.gateOf handle = g.handles[handle] := by
  simp [gateOf, Nat.mod_eq_of_lt h, List.getElem?_eq_getElem h]

theorem gateOf_of_handles {g g' : Gates} {handle : Nat} {more : List Nat}
    (h : g'.handles = g.handles ++ more) (hlt : handle < g.handles.length) :
    g'.gateOf handle = g.gateOf handle := by
  have hlt' : handle < g'.handles.length := by simp [h]; omega
  rw [gateOf_of_lt hlt, gateOf_of_lt hlt']
  simp [h, List.getElem_append_left hlt]

theorem drop_alive {g : Gates} {number : Nat} {guard : Guard} (h : g.guard? number = some guard) :
    (g.drop number).2 =
      { g.setGate guard.gate guard.previous with guards := g.guards.set number none } := by
  simp [drop, getElem?_of_guard? h]

theorem drop_dead {g : Gates} {number : Nat} (h : g.guard? number = none) :
    (g.drop number).2 = g := by
  unfold drop
  split
  · rename_i alive halive
    simp [guard?, halive] at h
  · rfl

/-- Leaving a scope by a panic is an override whose guard is dropped. -/
theorem panicScope_eq (g : Gates) (handle : Nat) (offline : Bool) :
    ((g.step (.override handle offline)).step (.drop g.guards.length .panicked)) =
      { g.panicScope handle offline with guards := g.guards ++ [none] } := by
  have halive : (g.step (.override handle offline)).guard? g.guards.length =
      some ⟨g.gateOf handle, g.value (g.gateOf handle)⟩ := by
    simp [step, override, guard?]
  exact (drop_alive halive).trans (by simp [step, override, panicScope, setGate])

/-! ## One use -/

/-- The gate that a use goes to. -/
def target? (g : Gates) : Use → Option Nat
  | .new _ => none
  | .clone handle | .set handle _ | .read handle | .override handle _ | .panicScope handle _ =>
    some (g.gateOf handle)
  | .drop number _ => (g.guard? number).map Guard.gate

theorem handles_step (g : Gates) (use : Use) :
    ∃ more, (g.step use).handles = g.handles ++ more := by
  cases use with
  | new offline => exact ⟨[g.values.length], rfl⟩
  | clone handle => exact ⟨[g.gateOf handle], rfl⟩
  | drop number leaving =>
      refine ⟨[], ?_⟩
      cases h : g.guard? number with
      | none => simp [step, drop_dead h]
      | some guard => simp [step, drop_alive h, setGate]
  | set | read | override | panicScope =>
      exact ⟨[], (List.append_nil _).symm⟩

theorem values_step (g : Gates) (use : Use) :
    g.values.length ≤ (g.step use).values.length := by
  cases use with
  | new offline => simp [step, new]
  | drop number leaving =>
      cases h : g.guard? number with
      | none => simp [step, drop_dead h]
      | some guard => simp [step, drop_alive h, setGate]
  | clone | set | read | override | panicScope =>
      simp [step, clone, set, override, panicScope, setGate]

theorem Sound.step {g : Gates} (hg : g.Sound) (use : Use) : (g.step use).Sound := by
  have hlength := values_step g use
  have hkept : ∀ {gate}, gate < g.values.length → gate < (g.step use).values.length :=
    fun h => Nat.lt_of_lt_of_le h hlength
  obtain ⟨more, hmore⟩ := handles_step g use
  refine ⟨by simp [hmore, hg.handles], ?_, ?_⟩
  · cases use with
    | new offline =>
        intro gate hgate
        rcases List.mem_append.mp hgate with hold | hnew
        · exact hkept (hg.handle gate hold)
        · obtain rfl := List.mem_singleton.mp hnew
          simp [Gates.step, new]
    | clone handle =>
        intro gate hgate
        rcases List.mem_append.mp hgate with hold | hnew
        · exact hkept (hg.handle gate hold)
        · obtain rfl := List.mem_singleton.mp hnew
          exact hkept (hg.gateOf_lt handle)
    | drop number leaving =>
        intro gate hgate
        refine hkept (hg.handle gate ?_)
        cases h : g.guard? number with
        | none => simpa [Gates.step, drop_dead h] using hgate
        | some guard => simpa [Gates.step, drop_alive h, setGate] using hgate
    | set | read | override | panicScope =>
        exact fun gate hgate => hkept (hg.handle gate hgate)
  · cases use with
    | override handle offline =>
        intro guard hguard
        rcases List.mem_append.mp hguard with hold | hnew
        · exact hkept (hg.guard guard hold)
        · obtain rfl : guard = ⟨g.gateOf handle, g.value (g.gateOf handle)⟩ := by simpa using hnew
          exact hkept (hg.gateOf_lt handle)
    | drop number leaving =>
        intro guard hguard
        refine hkept (hg.guard guard ?_)
        cases h : g.guard? number with
        | none => simpa [Gates.step, drop_dead h] using hguard
        | some dropped =>
            simp only [Gates.step, drop_alive h] at hguard
            exact (List.mem_or_eq_of_mem_set hguard).resolve_right (by simp)
    | new | clone | set | read | panicScope =>
        exact fun guard hguard => hkept (hg.guard guard hguard)

theorem Sound.run {g : Gates} (hg : g.Sound) (uses : List Use) : (g.run uses).Sound := by
  induction uses generalizing g with
  | nil => exact hg
  | cons use uses ih => exact ih (hg.step use)

/-- What a use makes of the scopes of a gate. -/
def turn (g : Gates) (gate : Nat) (use : Use) (scopes : List Bool) : List Bool :=
  match use with
  | .new offline => if gate = g.values.length then [offline] else scopes
  | .set handle offline => if g.gateOf handle = gate then offline :: scopes.tail else scopes
  | .override handle offline => if g.gateOf handle = gate then offline :: scopes else scopes
  | .drop number _ => if (g.guard? number).any (·.gate = gate) then scopes.tail else scopes
  | .clone _ | .read _ | .panicScope _ _ => scopes

theorem guardsOf_override (g : Gates) (handle gate : Nat) (offline : Bool) :
    (g.step (.override handle offline)).guardsOf gate = g.guardsOf gate ++
      if g.gateOf handle = gate then [⟨gate, g.value gate⟩] else [] := by
  have hguards : (g.step (.override handle offline)).guardsOf gate =
      g.guardsOf gate ++ guardsOn gate [some ⟨g.gateOf handle, g.value (g.gateOf handle)⟩] :=
    guardsOn_append gate g.guards _
  rw [hguards, guardsOn_some]
  by_cases h : g.gateOf handle = gate
  · simp [h]
  · simp [h]

/-- Dropping the latest guard of a gate leaves the guards before it. -/
theorem guardsOf_drop {g : Gates} {number : Nat} {guard : Guard} (leaving : Leaving)
    (halive : g.guard? number = some guard) (horder : g.inOrder (.drop number leaving) = true)
    (gate : Nat) :
    g.guardsOf gate = (g.step (.drop number leaving)).guardsOf gate ++
      if guard.gate = gate then [guard] else [] := by
  have hlater : guardsOn guard.gate (g.guards.drop (number + 1)) = [] := by
    simpa [inOrder, halive] using horder
  have hbefore := guardsOn_split (getElem?_of_guard? halive) gate
  have hafter : (g.step (.drop number leaving)).guardsOf gate =
      guardsOn gate (g.guards.take number) ++ guardsOn gate (g.guards.drop (number + 1)) := by
    rw [step, drop_alive halive]
    exact guardsOn_set_none (getElem?_of_guard? halive) gate
  rw [hafter, guardsOf, hbefore]
  by_cases h : guard.gate = gate
  · subst h
    simp [hlater]
  · simp [h]

theorem scopes_setGate (g : Gates) (gate other : Nat) (offline : Bool)
    (h : gate < g.values.length) :
    (g.setGate gate offline).scopes other =
      if gate = other then offline :: (g.scopes other).tail else g.scopes other := by
  have hguards : (g.setGate gate offline).guardsOf other = g.guardsOf other := rfl
  have hvalue := value_setGate g gate other offline h
  simp only [scopes, hguards, hvalue, List.tail_cons]
  by_cases heq : gate = other <;> simp [heq]

theorem scopes_step {g : Gates} (hg : g.Sound) {use : Use} (horder : g.inOrder use = true)
    (gate : Nat) :
    (g.step use).scopes gate = g.turn gate use (g.scopes gate) := by
  cases use with
  | new offline =>
      by_cases h : gate = g.values.length
      · subst h
        have hfresh : (g.new offline).guardsOf g.values.length = [] := hg.guardsOf_fresh
        simp [step, turn, scopes, value_new, hfresh]
      · have hguards : (g.new offline).guardsOf gate = g.guardsOf gate := rfl
        simp [step, turn, scopes, value_new, h, hguards]
  | clone handle => rfl
  | read handle => rfl
  | set handle offline => exact scopes_setGate g _ gate offline (hg.gateOf_lt handle)
  | override handle offline =>
      have hvalue : (g.step (.override handle offline)).value gate =
          if g.gateOf handle = gate then offline else g.value gate :=
        value_setGate g _ gate offline (hg.gateOf_lt handle)
      by_cases h : g.gateOf handle = gate <;>
        simp [scopes, turn, hvalue, guardsOf_override, h]
  | drop number leaving =>
      cases halive : g.guard? number with
      | none => simp [step, drop_dead halive, turn, halive]
      | some guard =>
          have hvalue : (g.step (.drop number leaving)).value gate =
              if guard.gate = gate then guard.previous else g.value gate := by
            rw [step, drop_alive halive]
            exact value_setGate g _ gate _ (hg.guard?_lt halive)
          have hguards := guardsOf_drop leaving halive horder gate
          by_cases h : guard.gate = gate
          · simp [scopes, turn, halive, hvalue, hguards, h]
          · simp [scopes, turn, halive, hvalue, hguards, h]
  | panicScope handle offline =>
      have hlt := hg.gateOf_lt handle
      have hlt' : g.gateOf handle < (g.setGate (g.gateOf handle) offline).values.length := by
        simpa [setGate] using hlt
      simp only [step, panicScope, turn]
      rw [scopes_setGate _ _ _ _ hlt', scopes_setGate _ _ _ _ hlt]
      by_cases h : g.gateOf handle = gate
      · subst h
        simp [scopes]
      · simp [h]

/-! ## From an override to the drop of its guard -/

/-- A live guard stays as it was made until it is dropped. -/
theorem guard?_step (g : Gates) (use : Use) {number : Nat} (h : number < g.guards.length) :
    (g.step use).guard? number = g.guard? number ∨ (g.step use).guard? number = none := by
  cases use with
  | override handle offline =>
      refine .inl ?_
      simp [step, override, guard?, List.getElem?_append_left h]
  | drop other leaving =>
      cases halive : g.guard? other with
      | none => exact .inl (by rw [step, drop_dead halive])
      | some guard =>
          rw [step, drop_alive halive]
          by_cases heq : other = number
          · subst heq
            exact .inr (by simp [guard?, h])
          · exact .inl (by simp [guard?, heq])
  | new | clone | set | read | panicScope => exact .inl rfl

theorem guards_step (g : Gates) (use : Use) : g.guards.length ≤ (g.step use).guards.length := by
  cases use with
  | override handle offline => simp [step, override]
  | drop number leaving =>
      cases h : g.guard? number with
      | none => simp [step, drop_dead h]
      | some guard => simp [step, drop_alive h]
  | new | clone | set | read | panicScope => exact Nat.le_refl _

theorem guard?_dead (g : Gates) (use : Use) {number : Nat} (hlt : number < g.guards.length)
    (hdead : g.guard? number = none) : (g.step use).guard? number = none := by
  rcases guard?_step g use hlt with h | h
  · rw [h, hdead]
  · exact h

/-- The guards of a gate before a place. -/
def earlier (g : Gates) (gate number : Nat) : List Guard := guardsOn gate (g.guards.take number)

/-- While a guard is alive, no earlier guard of its gate is dropped. -/
theorem earlier_step {g : Gates} {use : Use} (horder : g.inOrder use = true) {number : Nat}
    {guard : Guard} (hafter : (g.step use).guard? number = some guard)
    (halive : g.guard? number = some guard) :
    (g.step use).earlier guard.gate number = g.earlier guard.gate number := by
  have hlt : number < g.guards.length := lt_of_guard? halive
  cases use with
  | override handle offline =>
      simp [earlier, step, override, List.take_append_of_le_length (Nat.le_of_lt hlt)]
  | drop other leaving =>
      cases hother : g.guard? other with
      | none => rw [step, drop_dead hother]
      | some dropped =>
          rcases Nat.lt_trichotomy other number with hbefore | rfl | hbehind
          · have hgate : dropped.gate ≠ guard.gate := by
              intro heq
              have hlater : guardsOn dropped.gate (g.guards.drop (other + 1)) = [] := by
                simpa [inOrder, hother] using horder
              have hplace : (g.guards.drop (other + 1))[number - (other + 1)]? =
                  some (some guard) := by
                rw [List.getElem?_drop, Nat.add_sub_cancel' hbefore, getElem?_of_guard? halive]
              have hmem := mem_guardsOn.mpr ⟨List.mem_of_getElem? hplace, heq.symm⟩
              simp [hlater] at hmem
            have hplace : (g.guards.take number)[other]? = some (some dropped) := by
              rw [List.getElem?_take_of_lt hbefore, getElem?_of_guard? hother]
            have hsplit := guardsOn_split hplace guard.gate
            rw [if_neg hgate, List.nil_append, ← guardsOn_set_none hplace,
              ← List.take_set] at hsplit
            rw [step, drop_alive hother]
            exact hsplit.symm
          · simp [step, drop_alive hother, guard?, hlt] at hafter
          · simp [earlier, step, drop_alive hother, List.take_set_of_le (Nat.le_of_lt hbehind)]
  | new | clone | set | read | panicScope => rfl

theorem dead_run {g : Gates} (uses : List Use) {number : Nat} (hlt : number < g.guards.length)
    (hdead : g.guard? number = none) : (g.run uses).guard? number = none := by
  induction uses generalizing g with
  | nil => exact hdead
  | cons use uses ih =>
      exact ih (Nat.lt_of_lt_of_le hlt (guards_step g use)) (guard?_dead g use hlt hdead)

theorem nested_append (g : Gates) (before after : List Use) :
    g.nested (before ++ after) = (g.nested before && (g.run before).nested after) := by
  induction before generalizing g with
  | nil => rfl
  | cons use before ih => simp [nested, ih, Bool.and_assoc]

/-- A guard that is alive after a history stood there all along, and so did the earlier
guards of its gate. -/
theorem earlier_run {g : Gates} {uses : List Use} (hn : g.nested uses = true) {number : Nat}
    {guard : Guard} (halive : g.guard? number = some guard)
    (hafter : (g.run uses).guard? number ≠ none) :
    (g.run uses).guard? number = some guard ∧
      (g.run uses).earlier guard.gate number = g.earlier guard.gate number := by
  induction uses generalizing g with
  | nil => exact ⟨halive, rfl⟩
  | cons use uses ih =>
      obtain ⟨horder, hrest⟩ : g.inOrder use = true ∧ (g.step use).nested uses = true := by
        simpa [nested] using hn
      have hlt := lt_of_guard? halive
      rcases guard?_step g use hlt with hsame | hgone
      · have halive' : (g.step use).guard? number = some guard := hsame.trans halive
        obtain ⟨hguard, hearlier⟩ := ih hrest halive' hafter
        exact ⟨hguard, hearlier.trans (earlier_step horder halive' halive)⟩
      · exact absurd (dead_run uses (Nat.lt_of_lt_of_le hlt (guards_step g use)) hgone) hafter

theorem scopes_drop {g : Gates} (hg : g.Sound) {number : Nat} {guard : Guard} {leaving : Leaving}
    (halive : g.guard? number = some guard) (horder : g.inOrder (.drop number leaving) = true) :
    (g.step (.drop number leaving)).scopes guard.gate =
      guard.previous :: ((g.earlier guard.gate number).map Guard.previous).reverse := by
  have hlater : guardsOn guard.gate (g.guards.drop (number + 1)) = [] := by
    simpa [inOrder, halive] using horder
  have hguards := guardsOn_set_none (getElem?_of_guard? halive) guard.gate
  rw [hlater, List.append_nil] at hguards
  have hvalue := value_setGate g guard.gate guard.gate guard.previous (hg.guard?_lt halive)
  rw [if_pos rfl] at hvalue
  rw [step, drop_alive halive]
  exact congrArg₂ (fun value guards => value :: (guards.map Guard.previous).reverse) hvalue hguards

/-- Dropping the guard of an override leaves the scopes of its gate as the override found them. -/
theorem scopes_restored {g : Gates} (hg : g.Sound) {handle : Nat} {offline : Bool}
    {middle : List Use} {leaving : Leaving}
    (hn : g.nested (.override handle offline :: (middle ++ [.drop g.guards.length leaving])) = true)
    (halive : (g.run (.override handle offline :: middle)).guard? g.guards.length ≠ none) :
    ((g.run (.override handle offline :: middle)).step (.drop g.guards.length leaving)).scopes
      (g.gateOf handle) = g.scopes (g.gateOf handle) := by
  have hsound := hg.run (.override handle offline :: middle)
  obtain ⟨hmiddle, horder⟩ :
      (g.step (.override handle offline)).nested middle = true ∧
      (g.run (.override handle offline :: middle)).inOrder
        (.drop g.guards.length leaving) = true := by
    simpa [nested, nested_append, inOrder] using hn
  have hstarted : (g.step (.override handle offline)).guard? g.guards.length =
      some ⟨g.gateOf handle, g.value (g.gateOf handle)⟩ := by
    simp [step, override, guard?]
  have hfirst : (g.step (.override handle offline)).earlier (g.gateOf handle) g.guards.length =
      g.guardsOf (g.gateOf handle) := by
    simp [earlier, step, override, guardsOf]
  obtain ⟨hguard, hearlier⟩ := earlier_run hmiddle hstarted halive
  have hscopes := scopes_drop hsound hguard horder
  rwa [run_cons, hearlier, hfirst] at hscopes

/-! ## Values outside all scopes -/

/-- What a use gives to a gate that no override is alive on: a set on it, or its making. -/
def given? (g : Gates) (gate : Nat) : Use → Option Bool
  | .new offline => if gate = g.values.length then some offline else none
  | .set handle offline =>
    if g.gateOf handle = gate ∧ (g.guardsOf gate).isEmpty then some offline else none
  | _ => none

def given (g : Gates) (gate : Nat) : List Use → List Bool
  | [] => []
  | use :: rest => (g.given? gate use).toList ++ (g.step use).given gate rest

theorem guard?_any_iff {g : Gates} {number gate : Nat} :
    (g.guard? number).any (·.gate = gate) = true ↔
      ∃ guard, g.guard? number = some guard ∧ guard.gate = gate := by
  cases g.guard? number <;> simp

theorem guardsOf_ne_nil {g : Gates} {number gate : Nat}
    (h : (g.guard? number).any (·.gate = gate) = true) : g.guardsOf gate ≠ [] := by
  obtain ⟨guard, hguard, hgate⟩ := guard?_any_iff.mp h
  have hmem : guard ∈ g.guardsOf gate :=
    mem_guardsOn.mpr ⟨List.mem_of_getElem? (getElem?_of_guard? hguard), hgate⟩
  exact List.ne_nil_of_mem hmem

/-- The bottom of the scopes changes only outside all of them. -/
theorem bottom_step {g : Gates} (hg : g.Sound) {use : Use} (horder : g.inOrder use = true)
    (gate : Nat) :
    ((g.step use).scopes gate).getLast? = (g.given? gate use).or ((g.scopes gate).getLast?) := by
  rw [scopes_step hg horder]
  cases use with
  | new offline => by_cases h : gate = g.values.length <;> simp [turn, given?, h]
  | clone | read | panicScope => rfl
  | set handle offline =>
      by_cases h : g.gateOf handle = gate
      · cases hguards : g.guardsOf gate <;>
          simp [turn, given?, scopes, h, hguards, List.getLast?_cons]
      · simp [turn, given?, h]
  | override handle offline =>
    by_cases h : g.gateOf handle = gate <;> simp [turn, given?, scopes, h]
  | drop number leaving =>
      by_cases h : (g.guard? number).any (·.gate = gate) = true
      · have hne := guardsOf_ne_nil h
        cases hguards : g.guardsOf gate with
        | nil => exact absurd hguards hne
        | cons first later =>
            simp only [turn, if_pos h, given?, scopes, hguards, Option.none_or, List.tail_cons]
            simp [List.getLast?_cons]
      · simp [turn, given?, h]

theorem bottom_run {g : Gates} (hg : g.Sound) {uses : List Use} (hn : g.nested uses = true)
    (gate : Nat) :
    ((g.run uses).scopes gate).getLast? =
      (g.given gate uses).getLast?.or ((g.scopes gate).getLast?) := by
  induction uses generalizing g with
  | nil => simp [given]
  | cons use uses ih =>
      obtain ⟨horder, hrest⟩ : g.inOrder use = true ∧ (g.step use).nested uses = true := by
        simpa [nested] using hn
      have hgiven : (g.given? gate use).toList.getLast? = g.given? gate use := by
        cases g.given? gate use <;> rfl
      calc ((g.run (use :: uses)).scopes gate).getLast?
          = ((g.step use).given gate uses).getLast?.or (((g.step use).scopes gate).getLast?) :=
            ih (hg.step use) hrest
        _ = (((g.step use).given gate uses).getLast?.or (g.given? gate use)).or
              ((g.scopes gate).getLast?) := by rw [bottom_step hg horder, Option.or_assoc]
        _ = (g.given gate (use :: uses)).getLast?.or ((g.scopes gate).getLast?) := by
            rw [given, List.getLast?_append, hgiven]

/-! ## Handles of one gate -/

theorem gateOf_run (g : Gates) (uses : List Use) {handle : Nat} (h : handle < g.handles.length) :
    (g.run uses).gateOf handle = g.gateOf handle := by
  induction uses generalizing g with
  | nil => rfl
  | cons use uses ih =>
      obtain ⟨more, hmore⟩ := handles_step g use
      have hlt : handle < (g.step use).handles.length := by simp [hmore]; omega
      exact (ih (g.step use) hlt).trans (gateOf_of_handles hmore h)

theorem gateOf_clone (g : Gates) (handle : Nat) :
    (g.step (.clone handle)).gateOf g.handles.length = g.gateOf handle := by
  have hlt : g.handles.length < (g.step (.clone handle)).handles.length := by simp [step, clone]
  rw [gateOf_of_lt hlt]
  simp [step, clone]

theorem turn_of_target_ne {g : Gates} {use : Use} {gate : Nat} (hlt : gate < g.values.length)
    (h : g.target? use ≠ some gate) (scopes : List Bool) : g.turn gate use scopes = scopes := by
  cases use with
  | new offline => exact if_neg (Nat.ne_of_lt hlt)
  | set handle offline => exact if_neg fun heq => h (congrArg some heq)
  | override handle offline => exact if_neg fun heq => h (congrArg some heq)
  | drop number leaving =>
      refine if_neg fun hany => h ?_
      obtain ⟨guard, hguard, hgate⟩ := guard?_any_iff.mp hany
      simpa [target?, hguard] using hgate
  | clone | read | panicScope => rfl

theorem read_clone (g : Gates) {handle : Nat} (h : handle < g.handles.length) (after : List Use) :
    (g.run (.clone handle :: after)).read g.handles.length =
      (g.run (.clone handle :: after)).read handle := by
  have hlt : g.handles.length < (g.step (.clone handle)).handles.length := by simp [step, clone]
  have hnew := gateOf_run (g.step (.clone handle)) after hlt
  have hold := gateOf_run g (.clone handle :: after) h
  rw [gateOf_clone] at hnew
  rw [run_cons] at hold ⊢
  rw [read, read, hnew, hold]

theorem scopes_before {g : Gates} (hg : g.Sound) {before after : List Use} {use : Use}
    (hn : g.nested (before ++ use :: after) = true) (gate : Nat) :
    ((g.run before).step use).scopes gate =
      (g.run before).turn gate use ((g.run before).scopes gate) := by
  have horder : (g.run before).inOrder use = true := by
    simp only [nested_append, nested, Bool.and_eq_true] at hn
    exact hn.2.1
  exact scopes_step (hg.run before) horder gate

/-- Along a nested history: dropping the guard of an override leaves its gate as the
override found it, and so does a scope that panics; a gate without live guards has the value
last given to it outside all overrides; handles of one gate read alike; and a use leaves
every gate but its own as it was. -/
theorem overrides_nest {g : Gates} (hg : g.Sound) (hfree : ∀ gate, g.guardsOf gate = [])
    {uses : List Use} (hn : g.nested uses = true) :
    (∀ before handle offline middle leaving after,
      uses = before ++ .override handle offline ::
        (middle ++ .drop (g.run before).guards.length leaving :: after) →
      ((g.run before).run (.override handle offline :: middle)).guard?
        (g.run before).guards.length ≠ none →
      let closed := ((g.run before).run (.override handle offline :: middle)).step
        (.drop (g.run before).guards.length leaving)
      closed.value ((g.run before).gateOf handle) = (g.run before).read handle ∧
      closed.scopes ((g.run before).gateOf handle) =
        (g.run before).scopes ((g.run before).gateOf handle)) ∧
    (∀ before handle offline after, uses = before ++ .panicScope handle offline :: after →
      ∀ gate, ((g.run before).step (.panicScope handle offline)).value gate =
        (g.run before).value gate) ∧
    (∀ gate, (g.run uses).guardsOf gate = [] →
      (g.run uses).value gate = (g.given gate uses).getLast?.getD (g.value gate)) ∧
    (∀ before after a b, uses = before ++ after →
      a < (g.run before).handles.length → b < (g.run before).handles.length →
      (g.run before).gateOf a = (g.run before).gateOf b →
      (g.run uses).read a = (g.run uses).read b) ∧
    (∀ before handle after, uses = before ++ .clone handle :: after →
      handle < (g.run before).handles.length →
      (g.run uses).read (g.run before).handles.length = (g.run uses).read handle) ∧
    (∀ before use after gate, uses = before ++ use :: after → gate < (g.run before).values.length →
      (g.run before).target? use ≠ some gate →
      ((g.run before).step use).value gate = (g.run before).value gate ∧
      ((g.run before).step use).scopes gate = (g.run before).scopes gate) := by
  refine ⟨?_, ?_, ?_, ?_, ?_, ?_⟩
  · rintro before handle offline middle leaving after rfl halive
    have hopened : (g.run before).nested (.override handle offline ::
        (middle ++ [.drop (g.run before).guards.length leaving])) = true := by
      simp only [nested, nested_append, Bool.and_eq_true, Bool.and_true] at hn ⊢
      exact ⟨hn.2.1, hn.2.2.1, hn.2.2.2.1⟩
    have hscopes := scopes_restored (hg.run before) hopened halive
    exact ⟨(List.cons.inj hscopes).1, hscopes⟩
  · rintro before handle offline after rfl gate
    exact (List.cons.inj (scopes_before hg hn gate)).1
  · intro gate hlast
    have hbottom := bottom_run hg hn gate
    simp only [scopes, hlast, hfree, List.map_nil, List.reverse_nil,
      List.getLast?_singleton] at hbottom
    cases hgiven : (g.given gate uses).getLast? <;> simpa [hgiven] using hbottom
  · rintro before after a b rfl ha hb hgate
    rw [read, read, run_append, gateOf_run _ _ ha, gateOf_run _ _ hb, hgate]
  · rintro before handle after rfl hlt
    rw [run_append]
    exact read_clone (g.run before) hlt after
  · rintro before use after gate rfl hlt htarget
    have hscopes := scopes_before hg hn gate
    rw [turn_of_target_ne hlt htarget] at hscopes
    exact ⟨(List.cons.inj hscopes).1, hscopes⟩

/-- Two gates, and a clone of the first handle. -/
def trio : Gates := ⟨[true, false], [0, 1, 0], []⟩

/-- Overrides of both gates, left in another order than they were made in. -/
def crossing : List Use :=
  [.override 2 false] ++ .override 0 true :: ([.set 2 false, .override 1 true, .clone 2] ++
    .drop 1 .panicked :: [.drop 2 .panicked, .drop 0 .returned, .set 3 false, .panicScope 0 true])

theorem crossing_nests :
    ((trio.run [.override 2 false, .override 0 true, .set 2 false, .override 1 true, .clone 2]).step
      (.drop 1 .panicked)).value 0 = (trio.run [.override 2 false]).read 0 ∧
    (trio.run crossing).value 0 = false ∧ (trio.run crossing).value 1 = false ∧
    (trio.run crossing).read 3 = (trio.run crossing).read 2 := by
  have hsound : trio.Sound := ⟨by decide, by decide, fun guard h => absurd h List.not_mem_nil⟩
  have hnested : trio.nested crossing = true := by decide
  obtain ⟨hdrop, -, hvalue, -, hclone, -⟩ := overrides_nest hsound (fun gate => rfl) hnested
  refine ⟨?_, hvalue 0 (by decide), hvalue 1 (by decide), ?_⟩
  · exact (hdrop [.override 2 false] 0 true [.set 2 false, .override 1 true, .clone 2] .panicked _
      rfl (by decide)).1
  · exact hclone [.override 2 false, .override 0 true, .set 2 false, .override 1 true] 2 _ rfl
      (by decide)

end Gates

end PartDepot
