import PartDepot.Proofs.Losing
import PartDepot.Proofs.Unpacking

/-!
# A state directory and what was put there

In a state directory that is only installed to, every package stands as the last archive that was
extracted under its name has it, and the lock records no other versions.  Each step of an
installation keeps it so, whether it succeeds or not.
-/

namespace PartDepot

open Disk

namespace Disk

variable {d d' : Disk} {home : Place} {root : Path} {name : String}

/-! ## Directories in directories -/

/-- Making directories along more names goes on where the first names lead afterwards. -/
theorem makeDirsFrom_append {front : List String} {place : Place} {limit links : Nat}
    (hlimit : limit ≤ linkLimit)
    (h : (d.makeDirsFrom place front).2.Enters limit place front links home) (more : List String) :
    d.makeDirsFrom place (front ++ more) =
      (d.makeDirsFrom place front).2.makeDirsFrom home more := by
  induction front generalizing d place limit with
  | nil =>
      cases h
      rfl
  | cons name rest ih =>
      obtain ⟨mid, r, hfirst, hrest⟩ := Enters.split [name] h
      have hwalk := hfirst.walk_dir hlimit
      have hon {next : Place} {e : Disk} (hmake : ∀ rest, d.makeDirsFrom place (name :: rest) =
          e.makeDirsFrom next rest) (hnext : r = next) :
          d.makeDirsFrom place (name :: rest ++ more) =
            (d.makeDirsFrom place (name :: rest)).2.makeDirsFrom home more := by
        rw [List.cons_append, hmake, hmake]
        rw [hmake, hnext] at hrest
        exact ih (Nat.le_trans hfirst.le hlimit) hrest
      rcases d.makeDirsFrom_cons place name rest with ⟨next, hdir⟩ | ⟨hfree, -⟩ | ⟨fault, hmake⟩
      · refine hon (fun rest => makeDirsFrom_of_dir rest hdir) ?_
        have hagain := (d.makeDirsFrom_extends place (name :: rest)).walk hdir
        simpa using hwalk.symm.trans hagain
      · have hmake (rest : List String) : d.makeDirsFrom place (name :: rest) =
            (d.put (place ++ [name]) .dir).makeDirsFrom (place ++ [name]) rest := by
          rw [makeDirsFrom, hfree]
          simp
        refine hon hmake ?_
        have hstands := d.node?_makeDirsFrom_put (place ++ [name]) (by simp) rest
        rw [← hmake] at hstands
        have hagain := walk_free_dir hfree hstands
        simpa using hwalk.symm.trans hagain
      · rw [hmake] at hwalk
        exact hon (fun rest => makeDirsFrom_of_dir rest hwalk) rfl

theorem makeDirsFrom_dot (d : Disk) (place : Place) (names : List String) :
    (d.makeDirsFrom place (names ++ ["."])).2 = (d.makeDirsFrom place names).2 := by
  induction names generalizing d place with
  | nil =>
      have hdot : d.walk true linkLimit place ["."] = .ok (.taken place .dir) := by
        rw [walk_cons, stride, if_pos rfl, goOn, walk_nil]
      exact congrArg Prod.snd (makeDirsFrom_of_dir [] hdot)
  | cons name rest ih =>
      rw [List.cons_append, makeDirsFrom, makeDirsFrom]
      cases d.walk true linkLimit place [name] with
      | error fault => rfl
      | ok s =>
          cases s with
          | taken next n =>
              cases n with
              | dir => exact ih d next
              | file content => rfl
              | link target => rfl
          | free next =>
              dsimp only
              split
              · exact ih _ next
              · rfl

/-- A directory in another one is made in two steps, the outer one first. -/
theorem makeDirs_join (hname : Path.IsPiece name) (h : (d.makeDirs root).2.Leads root home) :
    (∃ fault, d.makeDirs (root.join name) = (some fault, d)) ∨
      d.makeDirs (root.join name) = (d.makeDirs root).2.makeDirsFrom home [name] := by
  have hunder := Path.under_join hname root
  have hne : (root.join name).text.isEmpty = false := by
    obtain ⟨front, hfront⟩ := Path.join_text root
    have hpiece : name ≠ "" := by
      rintro rfl
      exact hname.nonempty rfl
    simp [hfront hname, hpiece]
  cases hstart : d.start (root.join name) with
  | error fault => exact .inl ⟨fault, by simp [Disk.makeDirs, hne, hstart]⟩
  | ok place =>
      right
      have hplace : place = d.origin root := by
        rw [start_eq hstart, origin, origin, hunder.isAbsolute]
      have hjoin : d.makeDirs (root.join name) =
          d.makeDirsFrom (d.origin root) (root.names ++ [name]) := by
        rw [← hplace, ← hunder.names, ← hunder.steps]
        simp [Disk.makeDirs, hne, hstart]
      have hroot : (d.makeDirs root).2 = (d.makeDirsFrom (d.origin root) root.names).2 ∨
          (d.makeDirs root).2 = d := by
        unfold Disk.makeDirs
        split
        · exact .inr rfl
        · cases hstart' : d.start root with
          | error fault => exact .inr rfl
          | ok place' =>
              left
              dsimp only
              rw [start_eq hstart']
              rcases root.steps_eq with hsteps | hsteps
              · rw [hsteps]
              · rw [hsteps, makeDirsFrom_dot]
      obtain ⟨links, henters⟩ := h
      rw [origin_congr (d.makeDirs_extends root).here] at henters
      rw [hjoin]
      rcases hroot with hroot | hroot
      · rw [hroot] at henters ⊢
        exact makeDirsFrom_append (Nat.le_refl _) henters [name]
      · rw [hroot] at henters ⊢
        exact henters.makeDirsFrom (Nat.le_refl _) [name]

/-- Where a path leads, making its directories changes nothing. -/
theorem Leads.makeDirs_self (h : d.Leads root home) : (d.makeDirs root).2 = d :=
  h.makeDirs_above (List.prefix_refl _) rfl

/-- A name in a directory leads on if a directory has it. -/
theorem Leads.join (h : d.Leads root home) (hname : isName name = true)
    (hshort : name.utf8ByteSize ≤ nameLimit) (hdir : d.node? (home ++ [name]) = some .dir) :
    d.Leads (root.join name) (home ++ [name]) := by
  obtain ⟨links, henters⟩ := h
  have hunder := Path.under_join (isPiece_of_isName hname) root
  have horigin : d.origin (root.join name) = d.origin root := by
    rw [origin, origin, hunder.isAbsolute]
  obtain ⟨hdot, hup⟩ := ne_dots_of_isName hname
  have hwalk : d.walk true linkLimit (d.origin (root.join name)) (root.join name).names =
      .ok (.taken (home ++ [name]) .dir) := by
    rw [horigin, hunder.names, henters.walk true (by simp), walk_cons, stride, if_neg hdot,
      if_neg hup, if_neg (by omega), hdir]
    exact walk_nil d true links _
  exact enters_of_walk_dir hwalk

/-- What leads to a name in a directory leads through the directory. -/
theorem Leads.of_join_root {place : Place} (hname : Path.IsPiece name)
    (h : d.Leads (root.join name) place) : ∃ home, d.Leads root home := by
  obtain ⟨links, hall⟩ := h
  have horigin : d.origin (root.join name) = d.origin root := by
    rw [origin, origin, Path.isAbsolute_join hname]
  rw [horigin, Path.names_join hname] at hall
  obtain ⟨mid, home, hroot, -⟩ := Enters.split root.names hall
  exact ⟨home, mid, hroot⟩

/-- What leads to a name that no link has leads to a directory with that name. -/
theorem Leads.of_join {place : Place} (h : d.Leads root home) (hname : isName name = true)
    (hlink : d.NoLink (home ++ [name])) (hjoin : d.Leads (root.join name) place) :
    place = home ++ [name] ∧ d.node? (home ++ [name]) = some .dir := by
  obtain ⟨links, henters⟩ := h
  obtain ⟨links', hall⟩ := hjoin
  have hunder := Path.under_join (isPiece_of_isName hname) root
  have horigin : d.origin (root.join name) = d.origin root := by
    rw [origin, origin, hunder.isAbsolute]
  obtain ⟨hdot, hup⟩ := ne_dots_of_isName hname
  have hwalk := hall.walk_dir (Nat.le_refl _)
  rw [horigin, hunder.names, henters.walk true (by simp)] at hwalk
  obtain ⟨hplace, hnode⟩ := walk_last_name hdot hup (fun _ => hlink) hwalk
  exact ⟨hplace, hnode⟩

end Disk

namespace Packages

variable {p : Packages} {d d' made : Disk} {home : Place} {w w' : World} {x : Delivery}
  {log : List Delivery} {entries : List InstalledPackage} {dep : Dependency} {lock : Lock}

/-! ## What is kept -/

/-- At a place stands what an archive unpacks to below its top directory, and nothing else. -/
def Unpacked (archive : ByteArray) (d : Disk) (q : Place) : Prop :=
  ∃ root nodes child, Tar.unpack root archive = some nodes ∧
    nodes.lookup (root ++ [child]) ≠ none ∧
    ∀ rest, d.node? (q ++ rest) = nodes.lookup (root ++ [child] ++ rest)

/-- Every entry is for the last package that was put under its name. -/
def Backed (log : List Delivery) (entries : List InstalledPackage) : Prop :=
  ∀ e ∈ entries, ∃ x, latest log e.name = some x ∧ x.dep = ⟨e.name, e.version⟩ ∧ x.digest = e.digest

/-- The state directory is at a place, its path does not lead through the packages, and
every package is what was put there last. -/
structure Held (p : Packages) (home : Place) (log : List Delivery) (d : Disk) : Prop where
  way : (d.eraseBelow (home ++ ["modules"])).Leads p.stateDir home
  away : ¬home ++ ["modules"] <+: d.here
  modules : d.node? (home ++ ["modules"]) = some .dir ∨
    ∀ q, home ++ ["modules"] <+: q → d.node? q = none
  lockFile : ∀ n, d.node? (home ++ ["lock.yaml"]) = some n → ∃ content, n = .file content
  packages : ∀ name, (∀ rest, d.node? (home ++ ["modules", name] ++ rest) = none) ∨
    ∃ x, latest log name = some x ∧ Unpacked x.archive d (home ++ ["modules", name])

theorem Unpacked.congr {archive : ByteArray} {q : Place} (h : Unpacked archive d q)
    (hsame : ∀ rest, d'.node? (q ++ rest) = d.node? (q ++ rest)) : Unpacked archive d' q := by
  obtain ⟨root, nodes, child, hnodes, htop, htree⟩ := h
  exact ⟨root, nodes, child, hnodes, htop, fun rest => (hsame rest).trans (htree rest)⟩

theorem Unpacked.stands {archive : ByteArray} {q : Place} (h : Unpacked archive d q) :
    ∃ n, d.node? q = some n := by
  obtain ⟨root, nodes, child, -, htop, htree⟩ := h
  have hself := htree []
  rw [List.append_nil, List.append_nil] at hself
  rw [hself]
  exact Option.ne_none_iff_exists'.mp htop

/-- Nothing is below a place that an archive fills with anything but a directory. -/
theorem Unpacked.below {archive : ByteArray} {q : Place} (h : Unpacked archive d q)
    (hdir : d.node? q ≠ some .dir) {rest : Place} (hrest : rest ≠ []) :
    d.node? (q ++ rest) = none := by
  obtain ⟨root, nodes, child, hnodes, -, htree⟩ := h
  have hself := htree []
  rw [List.append_nil, List.append_nil] at hself
  rw [hself] at hdir
  rw [htree]
  exact Tar.lookup_below hnodes (List.prefix_append _ _) (by simp) hdir hrest

theorem Backed.record (h : Backed log lock.installed) (x : Delivery) (time : Timestamp) :
    Backed (log ++ [x]) (recording lock x time).installed := by
  intro e he
  have hself : latest [x] x.dep.name = some x := by simp [latest]
  rw [latest_append]
  rcases Lock.mem_record.mp he with ⟨hold, hne⟩ | rfl
  · have hother : latest [x] e.name = none := by
      rw [latest_eq_none]
      simpa using hne
    rw [hother, Option.none_or]
    exact h e hold
  · exact ⟨x, by rw [hself, Option.some_or], rfl, rfl⟩

namespace Held

variable (h : p.Held home log d)

include h

theorem leads : d.Leads p.stateDir home := (eraseBelow_extends d _).leads h.way

theorem leads_modules (hdir : d.node? (home ++ ["modules"]) = some .dir) :
    d.Leads p.modulesDir (home ++ ["modules"]) :=
  h.leads.join (by decide) (by decide) hdir

theorem of_leads_modules {place : Place} (hleads : d.Leads p.modulesDir place) :
    place = home ++ ["modules"] ∧ d.node? (home ++ ["modules"]) = some .dir := by
  refine h.leads.of_join (by decide) (fun target hlink => ?_) hleads
  rcases h.modules with hdir | hnone
  · simp [hdir] at hlink
  · simp [hnone _ (List.prefix_refl _)] at hlink

theorem direct : p.Direct d := by
  intro place hleads
  obtain ⟨rfl, hdir⟩ := h.of_leads_modules hleads
  refine h.way.join (by decide) (by decide) ?_
  rw [node?_eraseBelow, if_neg (by simp), hdir]

theorem tidy : p.Tidy d := by
  intro place hleads name hnone
  obtain ⟨rfl, -⟩ := h.of_leads_modules hleads
  rw [List.append_assoc] at hnone ⊢
  refine ⟨?_, fun hhere => h.away (.trans (by simp) hhere)⟩
  rcases h.packages name with hall | ⟨x, -, hunpacked⟩
  · rintro _ ⟨rest, rfl⟩
    exact hall rest
  · obtain ⟨n, hn⟩ := hunpacked.stands
    exact absurd (hnone.symm.trans hn) (by simp)

theorem bounded : p.Bounded d := by
  intro place hleads name target hlink q hq hne
  obtain ⟨rfl, -⟩ := h.of_leads_modules hleads
  rw [List.append_assoc] at hlink hq hne
  obtain ⟨rest, rfl⟩ := hq
  rcases h.packages name with hall | ⟨x, -, hunpacked⟩
  · exact hall rest
  · refine hunpacked.below (fun hdir => ?_) (by simpa using hne)
    exact absurd (hlink.symm.trans hdir) (by simp)

/-- A package whose tree is as it was is still the last one that was put there. -/
theorem packages_congr {name : String} (hsame : ∀ rest,
      d'.node? (home ++ ["modules", name] ++ rest) = d.node? (home ++ ["modules", name] ++ rest)) :
    (∀ rest, d'.node? (home ++ ["modules", name] ++ rest) = none) ∨
      ∃ x, latest log name = some x ∧ Unpacked x.archive d' (home ++ ["modules", name]) := by
  rcases h.packages name with hnone | ⟨x, hlatest, hunpacked⟩
  · exact .inl fun rest => (hsame rest).trans (hnone rest)
  · exact .inr ⟨x, hlatest, hunpacked.congr hsame⟩

/-- A change of the packages leaves everything else as it should be. -/
theorem change {log' : List Delivery} (hhere : d'.here = d.here)
    (hsame : ∀ q, ¬home ++ ["modules"] <+: q → d'.node? q = d.node? q)
    (hkept : d.node? (home ++ ["modules"]) = some .dir → d'.node? (home ++ ["modules"]) = some .dir)
    (hmodules : d'.node? (home ++ ["modules"]) = some .dir ∨
      ∀ q, home ++ ["modules"] <+: q → d'.node? q = none)
    (hpackages : ∀ name, (∀ rest, d'.node? (home ++ ["modules", name] ++ rest) = none) ∨
      ∃ x, latest log' name = some x ∧ Unpacked x.archive d' (home ++ ["modules", name])) :
    p.Held home log' d' := by
  have hless :
      (d.eraseBelow (home ++ ["modules"])).Extends (d'.eraseBelow (home ++ ["modules"])) := by
    refine ⟨hhere, fun {q n} hq => ?_⟩
    rw [node?_eraseBelow] at hq ⊢
    split at hq
    · simp at hq
    · next hout =>
      rw [if_neg hout]
      by_cases hbelow : home ++ ["modules"] <+: q
      · obtain rfl : q = home ++ ["modules"] :=
          Classical.byContradiction fun hne => hout ⟨hbelow, hne⟩
        rcases h.modules with hdir | hnone
        · rw [hkept hdir, ← hdir, hq]
        · simp [hnone _ hbelow] at hq
      · rw [hsame q hbelow, hq]
  refine ⟨hless.leads h.way, hhere ▸ h.away, hmodules, ?_, hpackages⟩
  rw [hsame _ (by simp)]
  exact h.lockFile

/-- What a failed extraction loses is not missed. -/
theorem loses {gone : String → Prop} (hloses : p.Loses gone d d') : p.Held home log d' := by
  have hkept {q : Place} (hq : ∀ name, gone name → ¬home ++ ["modules", name] <+: q) :
      d'.node? q = d.node? q := by
    refine hloses.kept q fun place name hleads hgone hbelow => hq name hgone ?_
    obtain ⟨rfl, -⟩ := h.of_leads_modules hleads
    rwa [List.append_assoc] at hbelow
  have hmodules : d'.node? (home ++ ["modules"]) = d.node? (home ++ ["modules"]) := hkept (by simp)
  refine h.change hloses.here (fun q hout => hkept fun name _ hbelow =>
    hout (.trans (by simp) hbelow)) (hmodules.trans ·) ?_ fun name => ?_
  · rcases h.modules with hdir | hnone
    · exact .inl (hmodules.trans hdir)
    · right
      intro q hq
      rw [hloses.kept q fun place name hleads _ _ => ?_, hnone q hq]
      have hdir := (h.of_leads_modules hleads).2
      simp [hnone _ (List.prefix_refl _)] at hdir
  · by_cases hgone : gone name ∧ d.node? (home ++ ["modules"]) = some .dir
    · left
      intro rest
      have hlost := hloses.lost _ (h.leads_modules hgone.2) name hgone.1 rest
      rwa [List.append_assoc home] at hlost
    · refine h.packages_congr fun rest =>
        hloses.kept _ fun place name' hleads hgone' hbelow => hgone ?_
      obtain ⟨rfl, hdir⟩ := h.of_leads_modules hleads
      simp at hbelow
      exact ⟨hbelow ▸ hgone', hdir⟩

/-- An extracted package is what stands at its name, and the last one that was put there. -/
theorem extracted {place : Place} {tmp : String} {n : Node} (hname : isName x.dep.name = true)
    (hstage : p.Stage d place tmp) (hx : p.Extracted x.dep.name x.archive d d' place tmp n) :
    p.Held home (log ++ [x]) d' := by
  obtain ⟨rfl, hdir⟩ := h.of_leads_modules hstage.leads
  have hself : latest [x] x.dep.name = some x := by simp [latest]
  have hmodules : d'.node? (home ++ ["modules"]) = some .dir := by
    rw [hx.same.node _ (by simp), hdir]
  refine h.change hx.same.here (fun q hout => hx.same.node q ?_) (fun _ => hmodules) (.inl hmodules)
    fun name => ?_
  · rintro (hbelow | hbelow)
    · exact hout (below_of_name hbelow).1
    · exact hout (below_of_name hbelow).1
  rw [latest_append]
  by_cases hx' : name = x.dep.name
  · right
    rw [hx']
    refine ⟨x, by rw [hself, Option.some_or], ?_⟩
    obtain ⟨nodes, child, hnodes, htree⟩ := hx.tree
    have hall (rest : Place) : d'.node? (home ++ ["modules"] ++ [x.dep.name] ++ rest) =
        nodes.lookup (home ++ ["modules"] ++ [tmp, child] ++ rest) := by
      refine htree rest ?_
      by_cases hrest : rest = []
      · exact .inl hrest
      · right
        rw [List.append_assoc home]
        rcases h.packages x.dep.name with hnone | ⟨y, -, hunpacked⟩
        · exact .inr (hnone rest)
        · by_cases hold : d.node? (home ++ ["modules", x.dep.name]) = some .dir
          · exact .inl hold
          · exact .inr (hunpacked.below hold hrest)
    refine ⟨home ++ ["modules"] ++ [tmp], nodes, child, hnodes, ?_, fun rest => ?_⟩
    · have hnode := congrArg Spot.node? (hx.leads.find_name hname hx.found)
      have hfirst := hall []
      rw [List.append_nil, List.append_nil] at hfirst
      rw [spotAt_node?, hfirst] at hnode
      rw [← List.append_cons, ← hnode]
      exact Option.some_ne_none n
    · simpa using hall rest
  · have hother : latest [x] name = none := by
      rw [latest_eq_none]
      simpa using hx'
    by_cases htmp : name = tmp
    · left
      intro rest
      exact hx.gone _ (by simp [htmp])
    · rw [hother, Option.none_or]
      refine h.packages_congr fun rest => hx.same.node _ ?_
      simp [Ne.symm htmp, Ne.symm hx']

end Held

/-- The modules directory is made, or making it is refused at once. -/
theorem Held.modules_made (h : p.Held home log (d.makeDirs p.stateDir).2) :
    (∃ fault, d.makeDirs p.modulesDir = (some fault, d)) ∨
      ∃ made, (d.makeDirs p.modulesDir).2 = made ∧ p.Held home log made ∧
        made.here = (d.makeDirs p.stateDir).2.here ∧
        made.node? (home ++ ["lock.yaml"]) =
          (d.makeDirs p.stateDir).2.node? (home ++ ["lock.yaml"]) := by
  have hpiece : Path.IsPiece "modules" := ⟨by decide, by decide⟩
  rcases makeDirs_join hpiece h.leads with hfault | hjoin
  · exact .inl hfault
  right
  rw [modulesDir, hjoin]
  generalize (d.makeDirs p.stateDir).2 = kept at h ⊢
  rcases kept.makeDirsFrom_cons home "modules" [] with
    ⟨next, hdir⟩ | ⟨hfree, hmake⟩ | ⟨fault, hmake⟩
  · rw [makeDirsFrom_of_dir [] hdir]
    exact ⟨kept, rfl, h, rfl, rfl⟩
  · rw [hmake]
    have hput (q : Place) : (kept.put (home ++ ["modules"]) .dir).node? q =
        if q = home ++ ["modules"] then some .dir else kept.node? q := node?_put (by simp) .dir q
    have hmodules := (hput _).trans (if_pos rfl)
    have hnone := node?_of_walk_free hfree
    refine ⟨kept.put (home ++ ["modules"]) .dir, rfl,
      h.change rfl (fun q hout => ?_) (fun _ => hmodules) (.inl hmodules)
      fun name => ?_, rfl, ?_⟩
    · rw [hput, if_neg]
      rintro rfl
      exact hout (List.prefix_refl _)
    · left
      intro rest
      rw [hput, if_neg (by simp)]
      rcases h.modules with hdir | hall
      · simp [hdir] at hnone
      · exact hall _ (by simp)
    · rw [hput, if_neg (by simp)]
  · rw [hmake]
    exact ⟨kept, rfl, h, rfl, rfl⟩

/-! ## The lock file -/

/-- Wherever the state directory is, and has nothing but a file in the place of the lock, a
lock can be saved there. -/
def LockWritable (stateDir : Path) : Prop :=
  ∀ (lock : Lock) (w : World) (home : Place), w.disk.Leads stateDir home →
    (∀ n, w.disk.node? (home ++ ["lock.yaml"]) = some n → ∃ content, n = .file content) →
    ∃ w', lock.save (stateDir.join "lock.yaml") w = (.ok (), w')

/-- The entries of a lock in the bytes of a file. -/
def entriesIn (content : ByteArray) : List InstalledPackage :=
  (((String.fromUTF8? content).bind Lock.parse).map (·.installed)).getD []

theorem entriesIn_eq (content : ByteArray) :
    (match (match String.fromUTF8? content with
      | some text => Except.ok text
      | none => .error Fault.notText) with
      | .ok text => ((Lock.parse text).map (·.installed)).getD []
      | .error _ => []) = entriesIn content := by
  unfold entriesIn
  cases String.fromUTF8? content <;> rfl

theorem mem_recorded {e : InstalledPackage} : e ∈ p.recorded d ↔ ∃ q content,
    d.find true p.lockPath = .ok (.taken q (.file content)) ∧ e ∈ entriesIn content := by
  unfold recorded readText Disk.read
  cases hfind : d.find true p.lockPath with
  | error fault => simp [bind, Except.bind]
  | ok s =>
      cases s with
      | free q => simp [bind, Except.bind]
      | taken q n =>
          cases n with
          | dir => simp [bind, Except.bind]
          | link target => simp [bind, Except.bind]
          | file content =>
              refine (iff_of_eq (congrArg (e ∈ ·) (entriesIn_eq content))).trans ⟨fun he => ?_, ?_⟩
              · exact ⟨q, content, rfl, he⟩
              · rintro ⟨q', content', hsame, he⟩
                obtain ⟨-, hfile⟩ := Spot.taken.inj (Except.ok.inj hsame)
                exact Node.file.inj hfile ▸ he

theorem recorded_mono (hsub : d.Extends d') {e : InstalledPackage} (he : e ∈ p.recorded d) :
    e ∈ p.recorded d' := by
  obtain ⟨q, content, hfind, hentry⟩ := mem_recorded.mp he
  exact mem_recorded.mpr ⟨q, content, hsub.find hfind, hentry⟩

namespace Held

theorem find_lock (h : p.Held home log d) {s : Spot} (hfind : d.find true p.lockPath = .ok s) :
    s = d.spotAt (home ++ ["lock.yaml"]) := by
  have hspot : d.find false p.lockPath = .ok (d.spotAt (home ++ ["lock.yaml"])) :=
    h.leads.find_name_again rfl (by decide) hfind
  have hsame : d.find true p.lockPath = d.find false p.lockPath := by
    refine find_follow fun q target hlink => ?_
    rw [hspot] at hlink
    have hnode := congrArg Spot.node? (Except.ok.inj hlink)
    rw [spotAt_node?] at hnode
    obtain ⟨content, hfile⟩ := h.lockFile _ hnode
    simp at hfile
  rw [hsame, hspot] at hfind
  exact (Except.ok.inj hfind).symm

/-- State directories with the same lock file record the same. -/
theorem recorded_of_same {log' : List Delivery} (h : p.Held home log d) (h' : p.Held home log' d')
    (hhere : d'.here = d.here)
    (hsame : d'.node? (home ++ ["lock.yaml"]) = d.node? (home ++ ["lock.yaml"]))
    {e : InstalledPackage} (he : e ∈ p.recorded d') : e ∈ p.recorded d := by
  obtain ⟨q, content, hfind, hentry⟩ := mem_recorded.mp he
  have hnode := congrArg Spot.node? (h'.find_lock hfind)
  rw [spotAt_node?, hsame] at hnode
  have hspot : d.find false p.lockPath = .ok (d.spotAt (home ++ ["lock.yaml"])) :=
    h.leads.find_name_again hhere.symm (by decide) hfind
  rw [spotAt_of_node hnode.symm] at hspot
  refine mem_recorded.mpr ⟨home ++ ["lock.yaml"], content, ?_, hentry⟩
  exact (find_follow (by simp [hspot])).trans hspot

/-- Only the lock file changes when a lock is saved. -/
theorem saved (h : p.Held home log d) (hsaved : p.Saved lock d d') : p.Held home log d' := by
  obtain ⟨l, -, hwrite⟩ := hsaved
  obtain ⟨content, hcontent⟩ : ∃ content, l.render.toUTF8 = content := ⟨_, rfl⟩
  rw [hcontent] at hwrite
  have htakes : d.TakesFile (home ++ ["lock.yaml"]) := by
    refine ⟨by simp, ?_⟩
    cases hnode : d.node? (home ++ ["lock.yaml"]) with
    | none => exact .inl rfl
    | some n =>
        obtain ⟨old, rfl⟩ := h.lockFile n hnode
        exact .inr ⟨old, rfl⟩
  obtain rfl : d' = d.put (home ++ ["lock.yaml"]) (.file content) := by
    unfold Disk.write at hwrite
    split at hwrite
    · next place old hfind =>
      have hplace := congrArg Spot.place (h.find_lock hfind)
      rw [spotAt_place] at hplace
      exact hplace ▸ (Prod.mk.inj hwrite).2.symm
    · simp at hwrite
    · next place hfind =>
      have hplace := congrArg Spot.place (h.find_lock hfind)
      rw [spotAt_place] at hplace
      exact hplace ▸ (Prod.mk.inj hwrite).2.symm
    · simp at hwrite
  have hput (q : Place) : (d.put (home ++ ["lock.yaml"]) (.file content)).node? q =
      if q = home ++ ["lock.yaml"] then some (.file content) else d.node? q :=
        node?_put (by simp) _ q
  have hbelow {q : Place} (hq : home ++ ["modules"] <+: q) :
      (d.put (home ++ ["lock.yaml"]) (.file content)).node? q = d.node? q := by
    rw [hput, if_neg]
    rintro rfl
    simp at hq
  have htakes' : (d.eraseBelow (home ++ ["modules"])).TakesFile (home ++ ["lock.yaml"]) := by
    refine ⟨htakes.1, ?_⟩
    rw [node?_eraseBelow, if_neg (by simp)]
    exact htakes.2
  have hway := eraseBelow_put d (b := home ++ ["modules"]) (q := home ++ ["lock.yaml"])
    (n := .file content) (by simp) ▸ h.way.put_file htakes' content
  refine ⟨hway, h.away, ?_, fun n hn => ?_, fun name => ?_⟩
  · rw [hbelow (List.prefix_refl _)]
    exact h.modules.imp_right fun hnone q hq => (hbelow hq).trans (hnone q hq)
  · rw [hput, if_pos rfl] at hn
    exact ⟨content, (Option.some.inj hn).symm⟩
  · exact h.packages_congr fun rest => hbelow (by simp)

end Held

end Packages

end PartDepot
