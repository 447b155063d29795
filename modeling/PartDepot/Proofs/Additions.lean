import PartDepot.Proofs.Recording

/-!
# The lock as a map of names

To record a package is to set one name in a map, whatever the lock holds: also where names come up
more than once or out of order.  A lock to which packages were only ever added has its names
strictly in order, and says of each name what was added last.
-/

namespace PartDepot.Lock

/-- The one lock comes from the other by setting the name of an entry. -/
structure Sets (l : Lock) (e : InstalledPackage) (l' : Lock) : Prop where
  apiVersion : l'.apiVersion = l.apiVersion
  generated : l'.generated = l.generated
  get?_self : l'.get? e.name = some e
  only : l'.installed.filter (·.name = e.name) = [e]
  get?_other : ∀ other ≠ e.name, l'.get? other = l.get? other
  /-- No entry of another name comes, goes or changes. -/
  others : (l'.installed.filter (·.name ≠ e.name)).Perm (l.installed.filter (·.name ≠ e.name))
  /-- Entries of one name keep their order, so the first of them stays the first. -/
  inTurn : ∀ other ≠ e.name,
    l'.installed.filter (·.name = other) = l.installed.filter (·.name = other)
  sorted : l'.installed.Pairwise fun a b => a.name ≤ b.name

/-- What is to be recorded, and when. -/
structure Addition where
  name : String
  version : String
  digest : Option String
  time : Timestamp

namespace Addition

def entry (a : Addition) : InstalledPackage := ⟨a.name, a.version, a.digest, a.time.withOffset⟩

end Addition

def add (l : Lock) (a : Addition) : Lock := l.record a.name a.version a.digest a.time

def addAll (l : Lock) (additions : List Addition) : Lock := additions.foldl add l

/-! ## One addition -/

theorem sorted_mergeSort_byName (entries : List InstalledPackage) :
    (entries.mergeSort byName).Pairwise fun a b => a.name ≤ b.name :=
  (List.pairwise_mergeSort byName_trans byName_total entries).imp byName_iff.mp

theorem record_sets (l : Lock) (name version : String) (digest : Option String) (time : Timestamp) :
    l.Sets ⟨name, version, digest, time.withOffset⟩ (l.record name version digest time) where
  apiVersion := rfl
  generated := rfl
  get?_self := by rw [get?_record, if_pos rfl]
  only := by rw [filter_record, if_pos rfl]
  get?_other other h := by rw [get?_record, if_neg h]
  others := by
    refine ((List.mergeSort_perm _ byName).filter _).trans ?_
    simp [List.filter_filter]
  inTurn other h := by rw [filter_record, if_neg h]
  sorted := sorted_mergeSort_byName _

/-! ## Any number of additions -/

variable (l : Lock)

theorem get?_addAll (additions : List Addition) (name : String) :
    (l.addAll additions).get? name =
      ((additions.map Addition.entry).reverse.find? (·.name = name)).or (l.get? name) := by
  induction additions generalizing l with
  | nil => rfl
  | cons a additions ih =>
      rw [addAll, List.foldl_cons, ← addAll, ih, List.map_cons, List.reverse_cons,
        List.find?_append, Option.or_assoc, add, get?_record]
      congr 1
      split
      · next hself => simp [Addition.entry, hself]
      · next hother => simp [Addition.entry, Ne.symm hother]

/-- Where every name stands once and in order, this is still so after an addition. -/
theorem ordered_add (a : Addition) (h : l.installed.Pairwise fun a b => a.name < b.name) :
    (l.add a).installed.Pairwise fun a b => a.name < b.name := by
  have hnodup : ((l.add a).installed.map (·.name)).Nodup := by
    have hperm :=
      (List.mergeSort_perm (l.installed.filter (·.name ≠ a.name) ++ [a.entry]) byName).map
      (·.name)
    refine hperm.nodup_iff.mpr ?_
    rw [List.map_append, List.nodup_append]
    refine ⟨List.pairwise_map.mpr ((h.sublist List.filter_sublist).imp ne_of_lt), by simp, ?_⟩
    intro name hname other hother
    obtain ⟨e, he, rfl⟩ := List.mem_map.mp hname
    obtain rfl : other = a.name := by simpa [Addition.entry] using hother
    simpa using (List.mem_filter.mp he).2
  exact (l.record_sets ..).sorted.imp₂ (fun _ _ => lt_of_le_of_ne) (List.pairwise_map.mp hnodup)

theorem ordered_addAll (additions : List Addition)
    (h : l.installed.Pairwise fun a b => a.name < b.name) :
    (l.addAll additions).installed.Pairwise fun a b => a.name < b.name := by
  induction additions generalizing l with
  | nil => exact h
  | cons a additions ih => exact ih (l.add a) (l.ordered_add a h)

/-- Recording a package sets its name and nothing else, in any lock; and the names of a lock that
was empty once are strictly in order, each with what was recorded for it last. -/
theorem record_is_update :
    (∀ (l : Lock) (name version : String) (digest : Option String) (time : Timestamp),
      l.Sets ⟨name, version, digest, time.withOffset⟩ (l.record name version digest time)) ∧
    ∀ (time : Timestamp) (additions : List Addition),
      ((empty time).addAll additions).installed.Pairwise (fun a b => a.name < b.name) ∧
      ∀ name, ((empty time).addAll additions).get? name =
        (additions.map Addition.entry).reverse.find? (·.name = name) := by
  refine ⟨record_sets,
    fun time additions => ⟨(empty time).ordered_addAll additions .nil, fun name => ?_⟩⟩
  rw [get?_addAll]
  exact Option.or_none

end PartDepot.Lock
