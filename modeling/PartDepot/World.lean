import PartDepot.Disk.Edit
import PartDepot.Failure
import PartDepot.Time.Timestamp

/-!
# The world and actions in it

What the library works on: the disk, the value of the offline gate, the clock, and a journal
of what was said and sent.  An action takes the world to a result and the world afterwards;
what it did before it failed stays done.
-/

namespace PartDepot

inductive LogLevel where
  | error
  | warn
  | info
deriving DecidableEq

inductive Method where
  | get
  | post
deriving DecidableEq

/-- A request as it goes over the wire. -/
structure Request where
  method : Method
  url : String
  userAgent : String
  contentType : Option String
  body : Option String
deriving DecidableEq

/-- What the journal keeps, in order. -/
inductive Event where
  | logged (level : LogLevel) (message : String)
  /-- A request was sent, while the gate had this value. -/
  | sent (request : Request) (offline : Bool)
  /-- Work on a target began, while the gate had this value. -/
  | began (target : String) (offline : Bool)
  | ended (target : String)
  /-- The installation of dependencies began, while the gate had this value. -/
  | installing (offline : Bool)
deriving DecidableEq

/-- The order in which a directory shows its entries. -/
structure Listing where
  arrange : List String → List String
  perm : ∀ names, (arrange names).Perm names

/-- The order in which the entries stand on the disk. -/
def Listing.asStored : Listing := ⟨id, fun _ => List.Perm.refl _⟩

structure World where
  disk : Disk
  offline : Bool
  /-- What the clock will show at each reading from now on. -/
  clock : Nat → Timestamp
  listing : Listing
  journal : List Event

namespace World

def requests (w : World) : List Request :=
  w.journal.filterMap fun
    | .sent r _ => some r
    | _ => none

def record (w : World) (e : Event) : World := { w with journal := w.journal ++ [e] }

@[simp]
theorem requests_logged (w : World) (level : LogLevel) (message : String) :
    (w.record (.logged level message)).requests = w.requests := by
  simp [requests, record]

@[simp]
theorem requests_sent (w : World) (r : Request) (offline : Bool) :
    (w.record (.sent r offline)).requests = w.requests ++ [r] := by
  simp [requests, record]

end World

/-- An action that fails with `ε` or yields `α`. -/
def Act (ε α : Type) : Type := World → Except ε α × World

namespace Act

variable {ε ε' α β : Type}

instance : Monad (Act ε) where
  pure a := fun w => (.ok a, w)
  bind m f := fun w =>
    match m w with
    | (.ok a, w) => f a w
    | (.error e, w) => (.error e, w)

theorem pure_apply (a : α) (w : World) : (pure a : Act ε α) w = (.ok a, w) := rfl

theorem bind_apply (m : Act ε α) (f : α → Act ε β) (w : World) :
    (m >>= f) w = match m w with
      | (.ok a, w) => f a w
      | (.error e, w) => (.error e, w) := rfl

theorem map_apply (f : α → β) (m : Act ε α) (w : World) :
    (f <$> m) w = match m w with
      | (.ok a, w) => (.ok (f a), w)
      | (.error e, w) => (.error e, w) := rfl

theorem id_map_act (m : Act ε α) : id <$> m = m := by
  funext w
  show (match m w with
    | (.ok a, w) => (.ok (id a), w)
    | (.error e, w) => (.error e, w)) = m w
  rcases m w with ⟨_ | _, _⟩ <;> rfl

theorem bind_assoc_act {γ : Type} (m : Act ε α) (f : α → Act ε β) (g : β → Act ε γ) :
    m >>= f >>= g = m >>= fun a => f a >>= g := by
  funext w
  simp only [bind_apply]
  rcases m w with ⟨_ | a, w'⟩ <;> rfl

instance : LawfulMonad (Act ε) :=
  LawfulMonad.mk' (Act ε) id_map_act (fun _ _ => rfl) bind_assoc_act

def fail (e : ε) : Act ε α := fun w => (.error e, w)

def look (f : World → α) : Act ε α := fun w => (.ok (f w), w)

def change (f : World → World) : Act ε Unit := fun w => (.ok (), f w)

def ofExcept (x : Except ε α) : Act ε α := fun w => (x, w)

def mapError (f : ε → ε') (m : Act ε α) : Act ε' α := fun w =>
  match m w with
  | (.ok a, w) => (.ok a, w)
  | (.error e, w) => (.error (f e), w)

def attempt (m : Act ε α) : Act ε' (Except ε α) := fun w =>
  let (r, w) := m w
  (.ok r, w)

def edit (f : Disk → Disk.Edited) (onFault : Fault → ε) : Act ε Unit := fun w =>
  match f w.disk with
  | (none, d) => (.ok (), { w with disk := d })
  | (some fault, d) => (.error (onFault fault), { w with disk := d })

theorem edit_apply (f : Disk → Disk.Edited) (onFault : Fault → ε) (w : World) :
    edit f onFault w =
      (match (f w.disk).1 with
        | none => .ok ()
        | some fault => .error (onFault fault), { w with disk := (f w.disk).2 }) := by
  unfold edit
  rcases f w.disk with ⟨_ | fault, d⟩ <;> rfl

def ask (f : Disk → Except Fault α) (onFault : Fault → ε) : Act ε α := fun w =>
  match f w.disk with
  | .ok a => (.ok a, w)
  | .error fault => (.error (onFault fault), w)

def log (level : LogLevel) (message : String) : Act ε Unit :=
  change (·.record (.logged level message))

def now : Act ε Timestamp := fun w =>
  (.ok (w.clock 0), { w with clock := fun n => w.clock (n + 1) })

/-- Sets the gate while an action runs and brings the value from before back afterwards, however the
action ends. -/
def withOffline (offline : Bool) (m : Act ε α) : Act ε α := fun w =>
  let (r, w') := m { w with offline := offline }
  (r, { w' with offline := w.offline })

/-! ## One step of a run -/

section Steps

variable {m : Act ε α} {f : α → Act ε β} {a : α} {e : ε} {w v : World}

theorem bind_of_ok (h : m w = (.ok a, v)) (f : α → Act ε β) : (m >>= f) w = f a v := by
  rw [bind_apply, h]

theorem bind_of_error (h : m w = (.error e, v)) (f : α → Act ε β) :
    (m >>= f) w = (.error e, v) := by
  rw [bind_apply, h]

/-- What fails in its first part fails in the same way whatever was to come next. -/
theorem bind_error_again {γ : Type} {e' : ε} {w' : World} (hm : m w = (.error e, v))
    (h : (m >>= f) w = (.error e', w')) (g : α → Act ε γ) : (m >>= g) w = (.error e', w') := by
  rw [bind_of_error hm] at h ⊢
  obtain ⟨he, rfl⟩ := Prod.mk.inj h
  rw [Except.error.inj he]

/-- A run that goes through has gone through its first part. -/
theorem bind_eq_ok {b : β} {w' : World} (h : (m >>= f) w = (.ok b, w')) :
    ∃ a v, m w = (.ok a, v) ∧ f a v = (.ok b, w') := by
  rw [bind_apply] at h
  rcases hm : m w with ⟨e | a, v⟩
  · simp [hm] at h
  · rw [hm] at h
    exact ⟨a, v, rfl, h⟩

/-- What is computed in the end leaves the world as it is. -/
theorem bind_pure_apply (m : Act ε α) (g : α → β) (w : World) :
    (m >>= fun a => pure (g a)) w = ((m w).1.map g, (m w).2) := by
  rw [bind_apply]
  rcases m w with ⟨e | a, v⟩ <;> rfl

theorem mapError_of_ok (h : m w = (.ok a, v)) (g : ε → ε') : m.mapError g w = (.ok a, v) := by
  rw [mapError, h]

theorem mapError_of_error (h : m w = (.error e, v)) (g : ε → ε') :
    m.mapError g w = (.error (g e), v) := by
  rw [mapError, h]

theorem mapError_eq_ok {g : ε → ε'} (h : m.mapError g w = (.ok a, v)) : m w = (.ok a, v) := by
  unfold mapError at h
  rcases hm : m w with ⟨e | a', v'⟩
  · simp [hm] at h
  · rw [hm] at h
    simpa using h

theorem edit_of_done {change : Disk → Disk.Edited} {d : Disk} (h : change w.disk = (none, d))
    (onFault : Fault → ε) : edit change onFault w = (.ok (), { w with disk := d }) := by
  rw [edit_apply, h]

theorem edit_of_fault {change : Disk → Disk.Edited} {fault : Fault} {d : Disk}
    (h : change w.disk = (some fault, d)) (onFault : Fault → ε) :
    edit change onFault w = (.error (onFault fault), { w with disk := d }) := by
  rw [edit_apply, h]

theorem look_bind (g : World → α) (f : α → Act ε β) (w : World) :
    (look g >>= f) w = f (g w) w := rfl

theorem log_bind (level : LogLevel) (message : String) (f : Unit → Act ε β) (w : World) :
    (log level message >>= f) w = f () (w.record (.logged level message)) := rfl

theorem now_bind (f : Timestamp → Act ε β) (w : World) :
    (now >>= f) w = f (w.clock 0) { w with clock := fun n => w.clock (n + 1) } := rfl

end Steps

end Act

end PartDepot
