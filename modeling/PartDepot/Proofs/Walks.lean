import PartDepot.Disk.Edit

/-!
# Walks on two disks

A walk looks at one place after the other and goes on or stops for what it finds there.  If two
disks let a walk stride in step, the results are related as the last strides are.  From this follows
what putting a file or making directories does to every other walk.
-/

namespace PartDepot

instance decidableEqBytes : DecidableEq ByteArray := ByteArray.instDecidableEq

instance decidableEqExcept {ε α : Type} [DecidableEq ε] [DecidableEq α] : DecidableEq (Except ε α)
  | .ok a, .ok b => decidable_of_iff (a = b) (by simp)
  | .error e, .error f => decidable_of_iff (e = f) (by simp)
  | .ok _, .error _ => .isFalse (by simp)
  | .error _, .ok _ => .isFalse (by simp)

deriving instance DecidableEq for Node, Disk, Disk.Spot

namespace Disk

/-! ## Strides -/

/-- What one name does to a walk. -/
inductive Stride where
  | on (place : Place)
  | link (place : Place) (todo : List String)
  | stop (result : Except Fault Spot)

/-- The stride of a walk for what stands at the place of the next name. -/
def Stride.ofNode (follow : Bool) (place : Place) (name : String) (rest : List String) :
    Option Node → Stride
  | none => .stop (if rest.isEmpty then .ok (.free (place ++ [name])) else .error .notFound)
  | some (.file content) =>
    .stop (if rest.isEmpty then .ok (.taken (place ++ [name]) (.file content))
      else .error .notDirectory)
  | some .dir => .on (place ++ [name])
  | some (.link target) =>
    if rest.isEmpty && !follow then .stop (.ok (.taken (place ++ [name]) (.link target)))
    else .link (if (Path.mk target).isAbsolute then [] else place) ((Path.mk target).steps ++ rest)

namespace Stride

variable {follow : Bool} {place : Place} {name : String} {rest : List String}

@[simp]
theorem ofNode_none : ofNode follow place name rest none =
    .stop (if rest.isEmpty then .ok (.free (place ++ [name])) else .error .notFound) := rfl

@[simp]
theorem ofNode_file {content : ByteArray} : ofNode follow place name rest (some (.file content)) =
    .stop (if rest.isEmpty then .ok (.taken (place ++ [name]) (.file content))
      else .error .notDirectory) := rfl

@[simp]
theorem ofNode_dir : ofNode follow place name rest (some .dir) = .on (place ++ [name]) := rfl

@[simp]
theorem ofNode_link {target : String} : ofNode follow place name rest (some (.link target)) =
    if rest.isEmpty && !follow then .stop (.ok (.taken (place ++ [name]) (.link target)))
    else .link (if (Path.mk target).isAbsolute then [] else place)
      ((Path.mk target).steps ++ rest) := rfl

end Stride

def stride (d : Disk) (follow : Bool) (place : Place) (name : String) (rest : List String) :
    Stride :=
  if name = "." then .on place
  else if name = ".." then .on place.dropLast
  else if nameLimit < name.utf8ByteSize then .stop (.error .nameTooLong)
  else .ofNode follow place name rest (d.node? (place ++ [name]))

def goOn (d : Disk) (follow : Bool) (links : Nat) (rest : List String) :
    Stride → Except Fault Spot
  | .on place => d.walk follow links place rest
  | .link place todo =>
    match links with
    | 0 => .error .tooManyLinks
    | links + 1 => d.walk follow links place todo
  | .stop result => result

theorem walkWith_cons (d : Disk) (follow : Bool)
    (atLink : Place → List String → Except Fault Spot) (place : Place) (name : String)
    (rest : List String) :
    d.walkWith follow atLink place (name :: rest) =
      match d.stride follow place name rest with
      | .on place => d.walkWith follow atLink place rest
      | .link place todo => atLink place todo
      | .stop result => result := by
  rw [walkWith, stride]
  split
  · rfl
  · split
    · rfl
    · split
      · rfl
      · cases hnode : d.node? (place ++ [name]) with
        | none => cases rest <;> rfl
        | some node =>
            cases node with
            | file content => cases rest <;> rfl
            | dir => rfl
            | link target =>
                simp only [Stride.ofNode_link]
                split <;> rfl

theorem walk_nil (d : Disk) (follow : Bool) (links : Nat) (place : Place) :
    d.walk follow links place [] = .ok (.taken place .dir) := by
  cases links <;> rfl

theorem walk_cons (d : Disk) (follow : Bool) (links : Nat) (place : Place) (name : String)
    (rest : List String) :
    d.walk follow links place (name :: rest) =
      d.goOn follow links rest (d.stride follow place name rest) := by
  cases links with
  | zero =>
      unfold walk
      rw [walkWith_cons]
      cases d.stride follow place name rest <;> rfl
  | succ fewer =>
      unfold walk
      rw [walkWith_cons]
      cases d.stride follow place name rest <;> rfl

/-- What holds of no names, and of a name if it holds of the names behind it from anywhere and of
all names with fewer links, holds of every walk. -/
theorem walk_induct {P : Nat → Place → List String → Prop}
    (nil : ∀ links place, P links place [])
    (cons : ∀ links place name rest, (∀ place', P links place' rest) →
      (∀ fewer place' todo, links = fewer + 1 → P fewer place' todo) → P links place (name :: rest))
    (links : Nat) (place : Place) (names : List String) : P links place names := by
  induction links generalizing place names with
  | zero =>
      induction names generalizing place with
      | nil => exact nil 0 place
      | cons name rest ih => exact cons 0 place name rest ih (by simp)
  | succ fewer ihlinks =>
      induction names generalizing place with
      | nil => exact nil _ place
      | cons name rest ih =>
          refine cons _ place name rest ih fun k place' todo hk => ?_
          obtain rfl : fewer = k := by omega
          exact ihlinks place' todo

/-- Strides of two walks that are in step: both go on in the same way, or both stop with related
results, or the first stops with a result that is related to any. -/
inductive Stride.InStep (I : Place → List String → Prop)
    (Q : Except Fault Spot → Except Fault Spot → Prop) (rest : List String) :
    Stride → Stride → Prop
  | on {place : Place} : I place rest → InStep I Q rest (.on place) (.on place)
  | link {place : Place} {todo : List String} : I place todo →
      InStep I Q rest (.link place todo) (.link place todo)
  | stop {r r' : Except Fault Spot} : Q r r' → InStep I Q rest (.stop r) (.stop r')
  | broken {r : Except Fault Spot} {s : Stride} : (∀ r', Q r r') → InStep I Q rest (.stop r) s

/-- Walks whose strides are in step as long as something is kept on the way have related results. -/
theorem walk_inStep (d d' : Disk) (follow follow' : Bool) (I : Place → List String → Prop)
    (Q : Except Fault Spot → Except Fault Spot → Prop)
    (hend : ∀ place, I place [] → Q (.ok (.taken place .dir)) (.ok (.taken place .dir)))
    (hflaw : ∀ fault, Q (.error fault) (.error fault))
    (hdot : ∀ place rest, I place ("." :: rest) → I place rest)
    (hup : ∀ place rest, I place (".." :: rest) → I place.dropLast rest)
    (hnode : ∀ place name rest, name ≠ "." → name ≠ ".." → I place (name :: rest) →
      Stride.InStep I Q rest (.ofNode follow place name rest (d.node? (place ++ [name])))
        (.ofNode follow' place name rest (d'.node? (place ++ [name]))))
    (links : Nat) (place : Place) (names : List String) (h : I place names) :
    Q (d.walk follow links place names) (d'.walk follow' links place names) := by
  induction links, place, names using walk_induct with
  | nil links place =>
      rw [walk_nil, walk_nil]
      exact hend place h
  | cons links place name rest ihrest ihlinks =>
      have hstride : Stride.InStep I Q rest (d.stride follow place name rest)
          (d'.stride follow' place name rest) := by
        unfold stride
        split
        · next hname => exact .on (hdot place rest (hname ▸ h))
        · next hdot =>
          split
          · next hname => exact .on (hup place rest (hname ▸ h))
          · next hup =>
            split
            · exact .stop (hflaw _)
            · exact hnode place name rest hdot hup h
      rw [walk_cons, walk_cons]
      generalize d.stride follow place name rest = s at hstride ⊢
      generalize d'.stride follow' place name rest = s' at hstride ⊢
      cases hstride with
      | on hI => exact ihrest _ hI
      | link hI =>
          cases links with
          | zero => exact hflaw _
          | succ fewer => exact ihlinks fewer _ _ rfl hI
      | stop hQ => exact hQ
      | broken hQ => exact hQ _

theorem walk_related (d d' : Disk) (follow follow' : Bool)
    (Q : Except Fault Spot → Except Fault Spot → Prop)
    (hend : ∀ place, Q (.ok (.taken place .dir)) (.ok (.taken place .dir)))
    (hflaw : ∀ fault, Q (.error fault) (.error fault))
    (hnode : ∀ place name rest, Stride.InStep (fun _ _ => True) Q rest
      (.ofNode follow place name rest (d.node? (place ++ [name])))
      (.ofNode follow' place name rest (d'.node? (place ++ [name]))))
    (links : Nat) (place : Place) (names : List String) :
    Q (d.walk follow links place names) (d'.walk follow' links place names) :=
  walk_inStep d d' follow follow' (fun _ _ => True) Q (fun place _ => hend place) hflaw
    (fun _ _ => id) (fun _ _ _ => trivial) (fun place name rest _ _ _ => hnode place name rest)
    links place names trivial

theorem Stride.InStep.same {Q : Except Fault Spot → Except Fault Spot → Prop}
    (hrefl : ∀ r, Q r r) (rest : List String) (s : Stride) :
    Stride.InStep (fun _ _ => True) Q rest s s := by
  cases s with
  | on place => exact .on trivial
  | link place todo => exact .link trivial
  | stop r => exact .stop (hrefl r)

theorem find_of_start {d : Disk} {p : Path} {origin : Place} (h : d.start p = .ok origin)
    (follow : Bool) : d.find follow p = d.walk follow linkLimit origin p.steps := by
  unfold find
  rw [h]
  rfl

theorem find_of_no_start {d : Disk} {p : Path} {fault : Fault} (h : d.start p = .error fault)
    (follow : Bool) : d.find follow p = .error fault := by
  unfold find
  rw [h]
  rfl

theorem start_congr {d d' : Disk} (h : d'.here = d.here) (p : Path) : d'.start p = d.start p := by
  unfold start
  rw [h]

/-! ## More on the disk -/

/-- What stands on the first disk stands on the second one too. -/
structure Extends (d d' : Disk) : Prop where
  here : d'.here = d.here
  node : ∀ {p : Place} {n : Node}, d.node? p = some n → d'.node? p = some n

namespace Extends

variable {d d' d'' : Disk}

theorem refl (d : Disk) : d.Extends d := ⟨rfl, id⟩

theorem trans (h : d.Extends d') (h' : d'.Extends d'') : d.Extends d'' :=
  ⟨h'.here.trans h.here, fun hp => h'.node (h.node hp)⟩

theorem put {p : Place} (hp : p ≠ []) (hfree : d.node? p = none) (n : Node) :
    d.Extends (d.put p n) := by
  refine ⟨rfl, fun {q m} hq => ?_⟩
  rw [node?_put hp, if_neg]
  · exact hq
  · rintro rfl
    simp [hfree] at hq

theorem walk (h : d.Extends d') {follow : Bool} {links : Nat} {place : Place}
    {names : List String} {q : Place} {n : Node}
    (hwalk : d.walk follow links place names = .ok (.taken q n)) :
    d'.walk follow links place names = .ok (.taken q n) := by
  refine walk_related d d' follow follow (fun r r' => r = .ok (.taken q n) → r' = .ok (.taken q n))
    (fun _ => id) (fun _ => id) (fun place name rest => ?_) links place names hwalk
  cases hnode : d.node? (place ++ [name]) with
  | none =>
      refine .broken fun r' hr => ?_
      split at hr <;> simp at hr
  | some m =>
      rw [h.node hnode]
      exact .same (fun _ => id) rest _

theorem find (h : d.Extends d') {follow : Bool} {p : Path} {q : Place} {n : Node}
    (hfind : d.find follow p = .ok (.taken q n)) : d'.find follow p = .ok (.taken q n) := by
  cases hstart : d.start p with
  | error fault => simp [find_of_no_start hstart] at hfind
  | ok origin =>
      have hstart' : d'.start p = .ok origin := (start_congr h.here p).trans hstart
      rw [find_of_start hstart] at hfind
      rw [find_of_start hstart']
      exact h.walk hfind

end Extends

/-! ## A new file -/

def Spot.place : Spot → Place
  | .taken q _ | .free q => q

def Spot.node? : Spot → Option Node
  | .taken _ n => some n
  | .free _ => none

/-- A place where a file can be put: nothing stands there, or a file. -/
def TakesFile (d : Disk) (p : Place) : Prop :=
  p ≠ [] ∧ (d.node? p = none ∨ ∃ old, d.node? p = some (.file old))

/-- What a walk that ends at a spot finds once a file is put at a place. -/
def Spot.stored (p : Place) (content : ByteArray) : Spot → Spot
  | .free q => if q = p then .taken p (.file content) else .free q
  | .taken q (.file old) => if q = p then .taken p (.file content) else .taken q (.file old)
  | .taken q n => .taken q n

theorem Spot.stored_of_ne {s : Spot} {p : Place} (h : s.place ≠ p) (content : ByteArray) :
    s.stored p content = s := by
  cases s with
  | free q => exact if_neg h
  | taken q n =>
      cases n with
      | file old => exact if_neg h
      | dir => rfl
      | link target => rfl

/-- A new file changes what is found at its own place and nothing else. -/
theorem walk_put_file {d : Disk} {p : Place} (h : d.TakesFile p) (content : ByteArray)
    (follow : Bool) (links : Nat) (place : Place) (names : List String) :
    (∀ s, d.walk follow links place names = .ok s →
      (d.put p (.file content)).walk follow links place names = .ok (s.stored p content)) ∧
    ∀ fault, d.walk follow links place names = .error fault →
      ∃ fault', (d.put p (.file content)).walk follow links place names = .error fault' := by
  refine walk_related d (d.put p (.file content)) follow follow (fun r r' =>
      (∀ s, r = .ok s → r' = .ok (Spot.stored p content s)) ∧
        ∀ fault, r = .error fault → ∃ fault', r' = .error fault')
    (fun place => ?_) (fun fault => ?_) (fun place name rest => ?_) links place names
  · refine ⟨fun s hs => ?_, by simp⟩
    obtain rfl := Except.ok.inj hs
    rfl
  · exact ⟨by simp, fun fault' _ => ⟨fault, rfl⟩⟩
  · rw [node?_put h.1]
    by_cases hq : place ++ [name] = p
    · rw [if_pos hq]
      rcases h.2 with hnone | ⟨old, hold⟩
      · rw [hq, hnone]
        apply Stride.InStep.stop
        cases rest <;> simp [Spot.stored, hq]
      · rw [hq, hold]
        apply Stride.InStep.stop
        cases rest <;> simp [Spot.stored, hq]
    · rw [if_neg hq]
      cases d.node? (place ++ [name]) with
      | none =>
          apply Stride.InStep.stop
          cases rest <;> simp [Spot.stored, hq]
      | some n =>
          cases n with
          | file old =>
              apply Stride.InStep.stop
              cases rest <;> simp [Spot.stored, hq]
          | dir => exact .on trivial
          | link target =>
              rw [Stride.ofNode_link]
              split
              · exact .stop (by simp [Spot.stored])
              · exact .link trivial

theorem find_put_file {d : Disk} {p : Place} (h : d.TakesFile p) (content : ByteArray)
    (follow : Bool) (path : Path) :
    (∀ s, d.find follow path = .ok s →
      (d.put p (.file content)).find follow path = .ok (s.stored p content)) ∧
    ∀ fault, d.find follow path = .error fault →
      ∃ fault', (d.put p (.file content)).find follow path = .error fault' := by
  have hsame : (d.put p (.file content)).start path = d.start path := start_congr rfl path
  cases hstart : d.start path with
  | error fault =>
      rw [find_of_no_start hstart, find_of_no_start (hsame.trans hstart)]
      exact ⟨by simp, fun fault' _ => ⟨fault, rfl⟩⟩
  | ok origin =>
      rw [find_of_start hstart, find_of_start (hsame.trans hstart)]
      exact walk_put_file h content follow linkLimit origin path.steps

/-! ## Where walks end -/

/-- A walk that does not end at a link is the same whether it would follow that link or not. -/
theorem walk_follow {d : Disk} {links : Nat} {place : Place} {names : List String}
    (h : ∀ q target, d.walk false links place names ≠ .ok (.taken q (.link target))) :
    d.walk true links place names = d.walk false links place names := by
  refine walk_related d d false true
    (fun r r' => (∀ q target, r ≠ .ok (.taken q (.link target))) → r' = r) (fun _ _ => rfl)
    (fun _ _ => rfl) (fun place name rest => ?_) links place names h
  cases d.node? (place ++ [name]) with
  | none => exact .stop fun _ => rfl
  | some n =>
      cases n with
      | file content => exact .stop fun _ => rfl
      | dir => exact .on trivial
      | link target =>
          cases rest with
          | nil => exact .broken fun r' hr => absurd rfl (hr _ target)
          | cons => exact .link trivial

theorem find_follow {d : Disk} {p : Path}
    (h : ∀ q target, d.find false p ≠ .ok (.taken q (.link target))) :
    d.find true p = d.find false p := by
  cases hstart : d.start p with
  | error fault => rw [find_of_no_start hstart, find_of_no_start hstart]
  | ok origin =>
      rw [find_of_start hstart] at h
      rw [find_of_start hstart, find_of_start hstart]
      exact walk_follow h

theorem node?_of_walk_free {d : Disk} {follow : Bool} {links : Nat} {place : Place}
    {names : List String} {q : Place} (h : d.walk follow links place names = .ok (.free q)) :
    d.node? q = none := by
  refine walk_related d d follow follow (fun r _ => ∀ q, r = .ok (.free q) → d.node? q = none)
    (by simp) (by simp) (fun place name rest => ?_) links place names q h
  cases hnode : d.node? (place ++ [name]) with
  | none =>
      refine .stop fun q hq => ?_
      split at hq
      · obtain rfl : place ++ [name] = q := by simpa using hq
        exact hnode
      · simp at hq
  | some n =>
      cases n with
      | file content => cases rest <;> exact .stop (by simp)
      | dir => exact .on trivial
      | link target =>
          rw [Stride.ofNode_link]
          split
          · exact .stop (by simp)
          · exact .link trivial

theorem node?_of_walk_file {d : Disk} {follow : Bool} {links : Nat} {place : Place}
    {names : List String} {q : Place} {content : ByteArray}
    (h : d.walk follow links place names = .ok (.taken q (.file content))) :
    d.node? q = some (.file content) := by
  refine walk_related d d follow follow
    (fun r _ => ∀ q, r = .ok (.taken q (.file content)) → d.node? q = some (.file content))
    (by simp) (by simp) (fun place name rest => ?_) links place names q h
  cases hnode : d.node? (place ++ [name]) with
  | none => cases rest <;> exact .stop (by simp)
  | some n =>
      cases n with
      | file old =>
          refine .stop fun q hq => ?_
          split at hq
          · simp only [Except.ok.injEq, Spot.taken.injEq] at hq
            rw [← hq.1, hnode, hq.2]
          · simp at hq
      | dir => exact .on trivial
      | link target =>
          rw [Stride.ofNode_link]
          split
          · exact .stop (by simp)
          · exact .link trivial

/-- Where one name led to a free place, it leads to the directory that is made there. -/
theorem walk_free_dir {d d' : Disk} {follow : Bool} {links : Nat} {place q : Place} {name : String}
    (h : d.walk follow links place [name] = .ok (.free q))
    (hdir : d'.node? (place ++ [name]) = some .dir) :
    d'.walk follow links place [name] = .ok (.taken (place ++ [name]) .dir) := by
  rw [walk_cons, stride] at h ⊢
  by_cases hdot : name = "."
  · simp [hdot, goOn, walk_nil] at h
  by_cases hup : name = ".."
  · simp [hup, goOn, walk_nil] at h
  by_cases hlong : nameLimit < name.utf8ByteSize
  · simp [hdot, hup, hlong, goOn] at h
  simp [hdot, hup, hlong, hdir, goOn, walk_nil]

/-! ## Making directories -/

theorem makeDirsFrom_of_dir {d : Disk} {place next : Place} {name : String} (rest : List String)
    (h : d.walk true linkLimit place [name] = .ok (.taken next .dir)) :
    d.makeDirsFrom place (name :: rest) = d.makeDirsFrom next rest := by
  rw [makeDirsFrom, h]

/-- One step of making directories: a directory that is there is entered, a free name is taken by a
new one, and anything else is in the way. -/
theorem makeDirsFrom_cons (d : Disk) (place : Place) (name : String) (rest : List String) :
    (∃ next, d.walk true linkLimit place [name] = .ok (.taken next .dir)) ∨
    (d.walk true linkLimit place [name] = .ok (.free (place ++ [name])) ∧
      d.makeDirsFrom place (name :: rest) =
        (d.put (place ++ [name]) .dir).makeDirsFrom (place ++ [name]) rest) ∨
    ∃ fault, d.makeDirsFrom place (name :: rest) = (some fault, d) := by
  rw [makeDirsFrom]
  cases hwalk : d.walk true linkLimit place [name] with
  | error fault => exact .inr (.inr ⟨fault, rfl⟩)
  | ok s =>
      cases s with
      | free next =>
          by_cases hnext : next = place ++ [name]
          · subst hnext
            exact .inr (.inl ⟨rfl, by simp⟩)
          · exact .inr (.inr ⟨.alreadyExists, by simp [hnext]⟩)
      | taken next n =>
          cases n with
          | dir => exact .inl ⟨next, rfl⟩
          | file content => exact .inr (.inr ⟨_, rfl⟩)
          | link target => exact .inr (.inr ⟨_, rfl⟩)

theorem makeDirsFrom_extends (d : Disk) (place : Place) (names : List String) :
    d.Extends (d.makeDirsFrom place names).2 := by
  induction names generalizing d place with
  | nil => exact .refl d
  | cons name rest ih =>
      rcases d.makeDirsFrom_cons place name rest with ⟨next, hdir⟩ | ⟨hfree, hmake⟩ | ⟨fault, hmake⟩
      · rw [makeDirsFrom_of_dir rest hdir]
        exact ih d next
      · rw [hmake]
        exact (Extends.put (by simp) (node?_of_walk_free hfree) .dir).trans (ih _ _)
      · rw [hmake]
        exact .refl d

theorem node?_makeDirsFrom_or (d : Disk) (place : Place) (names : List String) (q : Place) :
    (d.makeDirsFrom place names).2.node? q = d.node? q ∨
      d.node? q = none ∧ (d.makeDirsFrom place names).2.node? q = some .dir := by
  induction names generalizing d place with
  | nil => exact .inl rfl
  | cons name rest ih =>
      rcases d.makeDirsFrom_cons place name rest with ⟨next, hdir⟩ | ⟨hfree, hmake⟩ | ⟨fault, hmake⟩
      · rw [makeDirsFrom_of_dir rest hdir]
        exact ih d next
      · rw [hmake]
        have hput := node?_put (d := d) (p := place ++ [name]) (by simp) .dir q
        rcases ih (d.put (place ++ [name]) .dir) (place ++ [name]) with hsame | ⟨hnone, hdir⟩
        · rw [hsame, hput]
          split
          · next hself => exact .inr ⟨hself ▸ node?_of_walk_free hfree, rfl⟩
          · exact .inl rfl
        · refine .inr ⟨?_, hdir⟩
          rw [hput] at hnone
          split at hnone
          · simp at hnone
          · exact hnone
      · rw [hmake]
        exact .inl rfl

theorem node?_makeDirsFrom_put (d : Disk) (p : Place) (hp : p ≠ []) (names : List String) :
    ((d.put p .dir).makeDirsFrom p names).2.node? p = some .dir := by
  apply (makeDirsFrom_extends _ p names).node
  rw [node?_put hp, if_pos rfl]

theorem makeDirs_extends (d : Disk) (p : Path) : d.Extends (d.makeDirs p).2 := by
  unfold makeDirs
  split
  · exact .refl d
  · split
    · exact d.makeDirsFrom_extends _ _
    · exact .refl d

theorem node?_makeDirs (d : Disk) (p : Path) (q : Place) :
    (d.makeDirs p).2.node? q = d.node? q ∨
      d.node? q = none ∧ (d.makeDirs p).2.node? q = some .dir := by
  unfold makeDirs
  split
  · exact .inl rfl
  · split
    · exact d.node?_makeDirsFrom_or _ _ q
    · exact .inl rfl

theorem makeDirsFrom_again (d : Disk) (place : Place) (names : List String) :
    (d.makeDirsFrom place names).2.makeDirsFrom place names = d.makeDirsFrom place names := by
  induction names generalizing d place with
  | nil => rfl
  | cons name rest ih =>
      rcases d.makeDirsFrom_cons place name rest with ⟨next, hdir⟩ | ⟨hfree, hmake⟩ | ⟨fault, hmake⟩
      · rw [makeDirsFrom_of_dir rest hdir,
          makeDirsFrom_of_dir rest ((d.makeDirsFrom_extends next rest).walk hdir), ih]
      · rw [hmake]
        have hstands := d.node?_makeDirsFrom_put (place ++ [name]) (by simp) rest
        rw [makeDirsFrom_of_dir rest (walk_free_dir hfree hstands), ih]
      · rw [hmake]
        exact hmake

theorem makeDirs_again (d : Disk) (p : Path) : (d.makeDirs p).2.makeDirs p = d.makeDirs p := by
  by_cases hempty : p.text.isEmpty
  · simp [makeDirs, hempty]
  · have hstart : (d.makeDirs p).2.start p = d.start p := start_congr (d.makeDirs_extends p).here p
    unfold makeDirs at hstart ⊢
    rw [if_neg hempty] at hstart ⊢
    cases hd : d.start p with
    | error fault => simp [hempty, hd]
    | ok origin =>
        simp only [hd] at hstart ⊢
        rw [if_neg hempty, hstart]
        exact d.makeDirsFrom_again origin p.steps

section Put

variable {d : Disk} {p place : Place} {n : Node}
  (hkept : ∀ {place next : Place} {name : String},
    d.walk true linkLimit place [name] = .ok (.taken next .dir) →
      (d.put p n).walk true linkLimit place [name] = .ok (.taken next .dir))

include hkept

theorem makeDirsFrom_put {names : List String} (hmade : d.makeDirsFrom place names = (none, d)) :
    (d.put p n).makeDirsFrom place names = (none, d.put p n) := by
  induction names generalizing place with
  | nil => rfl
  | cons name rest ih =>
      rcases d.makeDirsFrom_cons place name rest with ⟨next, hdir⟩ | ⟨hfree, hmake⟩ | ⟨fault, hmake⟩
      · rw [makeDirsFrom_of_dir rest hdir] at hmade
        rw [makeDirsFrom_of_dir rest (hkept hdir)]
        exact ih hmade
      · -- A directory made on the way would still be on the disk, but it was not there before.
        have hstands := d.node?_makeDirsFrom_put (place ++ [name]) (by simp) rest
        rw [← hmake, hmade, node?_of_walk_free hfree] at hstands
        simp at hstands
      · rw [hmake] at hmade
        simp at hmade

/-- Where directories stand that a new node does not hide, they need not be made. -/
theorem makeDirs_put {path : Path} (hmade : d.makeDirs path = (none, d)) :
    (d.put p n).makeDirs path = (none, d.put p n) := by
  unfold makeDirs at hmade ⊢
  split
  · rfl
  · next hempty =>
    rw [if_neg hempty] at hmade
    have hsame : (d.put p n).start path = d.start path := start_congr rfl path
    rw [hsame]
    cases hstart : d.start path with
    | error fault => simp [hstart] at hmade
    | ok origin =>
        rw [hstart] at hmade
        exact makeDirsFrom_put hkept hmade

end Put

theorem makeDirs_put_file {d : Disk} {p : Place} (h : d.TakesFile p) (content : ByteArray)
    {path : Path} (hmade : d.makeDirs path = (none, d)) :
    (d.put p (.file content)).makeDirs path = (none, d.put p (.file content)) :=
  makeDirs_put (fun hdir => (walk_put_file h content true linkLimit _ _).1 _ hdir) hmade

end Disk

end PartDepot
