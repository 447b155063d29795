import PartDepot.Proofs.Hosts

/-!
# The authority of a URL

What is read from an authority is written in a form that reads as the same: a name and password with
a sign behind them, a host, and a port that is not the usual one.
-/

namespace PartDepot.Url

/-! ## The sign behind name and password -/

def behindAt (s : List Char) : List Char := (s.reverse.takeWhile (· != '@')).reverse

def beforeAt (s : List Char) : List Char :=
  if s.contains '@' then s.take (s.length - (behindAt s).length - 1) else []

theorem behindAt_append {t : List Char} (ht : '@' ∉ t) (s : List Char) :
    behindAt (s ++ t) = behindAt s ++ t := by
  have hall : ∀ c ∈ t.reverse, (c != '@') = true := fun c hc => by
    simp only [bne_iff_ne]
    rintro rfl
    exact ht (List.mem_reverse.mp hc)
  unfold behindAt
  rw [List.reverse_append, List.takeWhile_append_of_pos hall, List.reverse_append,
    List.reverse_reverse]

theorem behindAt_of_not_mem {t : List Char} (ht : '@' ∉ t) : behindAt t = t := behindAt_append ht []

theorem behindAt_sign {t : List Char} (ht : '@' ∉ t) (s : List Char) :
    behindAt (s ++ '@' :: t) = t := by
  have hsign : behindAt (s ++ ['@']) = [] := by simp [behindAt]
  rw [← List.singleton_append, ← List.append_assoc, behindAt_append ht, hsign, List.nil_append]

theorem beforeAt_of_not_mem {t : List Char} (ht : '@' ∉ t) : beforeAt t = [] := by
  simp [beforeAt, ht]

theorem beforeAt_sign {t : List Char} (ht : '@' ∉ t) (s : List Char) :
    beforeAt (s ++ '@' :: t) = s := by
  have hlen : (s ++ '@' :: t).length - t.length - 1 = s.length := by
    simp only [List.length_append, List.length_cons]
    omega
  rw [beforeAt, behindAt_sign ht, hlen, if_pos (by simp), List.take_left]

/-! ## Reading -/

theorem parse_ne_nil {s host : List Char} (h : Host.parse s = .ok host) : s ≠ [] ∧ host ≠ [] := by
  have hnil : Host.parse [] = .error .emptyHost := rfl
  constructor
  · rintro rfl
    simp [hnil] at h
  · rintro rfl
    have := Host.parse_parse h
    simp [hnil] at this

/-- The authority in its parts; nothing but the first check looks at what follows. -/
theorem readAuthority_eq {scheme : List Char} (hspecial : isSpecial scheme = true) (s : List Char)
    (slashFollows : Bool) : readAuthority scheme s slashFollows =
      if s.contains '@' && (beforeAt s).isEmpty && (behindAt s).isEmpty && slashFollows then
        .error .emptyHost
      else (Host.parse (cutHost false (behindAt s)).1).bind fun host =>
        if host.isEmpty && !(cutHost false (behindAt s)).2.isEmpty then .error .emptyHost
        else (readPort scheme ((cutHost false (behindAt s)).2.drop 1)).bind fun port =>
          if host.isEmpty && !(userinfoText (beforeAt s)).isEmpty then .error .emptyHost
          else .ok (userinfoText (beforeAt s), host, port) := by
  unfold readAuthority beforeAt
  rw [hspecial]
  rfl

/-- All that an authority has to be. -/
theorem readAuthority_eq_ok_iff {scheme s userinfo host : List Char} {port : Option Nat}
    {slashFollows : Bool} (hspecial : isSpecial scheme = true) :
    readAuthority scheme s slashFollows = .ok (userinfo, host, port) ↔
      Host.parse (cutHost false (behindAt s)).1 = .ok host ∧
      readPort scheme ((cutHost false (behindAt s)).2.drop 1) = .ok port ∧
      userinfo = userinfoText (beforeAt s) := by
  rw [readAuthority_eq hspecial]
  constructor
  · intro h
    split at h
    · simp at h
    · cases hhost : Host.parse (cutHost false (behindAt s)).1 with
      | error flaw => simp [hhost, Except.bind] at h
      | ok found =>
          rw [hhost] at h
          dsimp only [Except.bind] at h
          split at h
          · simp at h
          · cases hport : readPort scheme ((cutHost false (behindAt s)).2.drop 1) with
            | error flaw =>
                rw [hport] at h
                simp at h
            | ok number =>
                rw [hport] at h
                dsimp only at h
                split at h
                · simp at h
                · obtain ⟨rfl, rfl, rfl⟩ : _ ∧ _ ∧ _ := by simpa using h
                  exact ⟨rfl, rfl, rfl⟩
  · rintro ⟨hhost, hport, rfl⟩
    obtain ⟨htext, hname⟩ := parse_ne_nil hhost
    have hbehind : (behindAt s).isEmpty = false := by
      cases hempty : behindAt s with
      | nil => simp [hempty, cutHost] at htext
      | cons c rest => rfl
    have hkept : host.isEmpty = false := by simpa using hname
    rw [hbehind, hhost, if_neg (by simp)]
    dsimp only [Except.bind]
    rw [hkept, hport]
    simp

/-- What follows does not matter for what is read. -/
theorem readAuthority_flag {scheme s : List Char} {slashFollows : Bool}
    {read : List Char × List Char × Option Nat} (hspecial : isSpecial scheme = true)
    (h : readAuthority scheme s slashFollows = .ok read) (flag : Bool) :
    readAuthority scheme s flag = .ok read := by
  obtain ⟨userinfo, host, port⟩ := read
  rw [readAuthority_eq_ok_iff hspecial] at h ⊢
  exact h

theorem ne_nil_of_readAuthority {scheme s : List Char} {slashFollows : Bool}
    {read : List Char × List Char × Option Nat} (hspecial : isSpecial scheme = true)
    (h : readAuthority scheme s slashFollows = .ok read) : s ≠ [] := by
  rintro rfl
  obtain ⟨userinfo, host, port⟩ := read
  exact (parse_ne_nil ((readAuthority_eq_ok_iff hspecial).mp h).1).1 rfl

/-! ## Name and password -/

theorem encode_userinfo (s : List Char) : Percent.encode Percent.userinfo
    (Percent.encode Percent.userinfo s) = Percent.encode Percent.userinfo s :=
  Percent.encode_encode Percent.spares_userinfo (fun _ h => h) s

theorem isDelimiter_of_encode {s : List Char} {c : Char}
    (h : c ∈ Percent.encode Percent.userinfo s) :
    Host.isDelimiter c = false := by
  rcases Percent.mem_encode h with ⟨-, hlow, hhigh, hset⟩ | hescape
  · have hsets : 0x20 ≤ c.toNat → Percent.userinfo c = false → Host.isDelimiter c = false :=
      Host.forall_ascii (P := fun c => 0x20 ≤ c.toNat → Percent.userinfo c = false →
        Host.isDelimiter c = false) (by decide +kernel) (by omega)
    exact hsets hlow hset
  · exact Percent.spares_of_range (by decide) (by decide) c hescape

/-- Name and password, without the sign behind them. -/
def credential (name password : List Char) : List Char :=
  Percent.encode Percent.userinfo name ++
    if password.isEmpty then [] else ':' :: Percent.encode Percent.userinfo password

theorem userinfoText_eq (s : List Char) : userinfoText s =
    if (credential (s.takeWhile (· != ':')) ((s.dropWhile (· != ':')).drop 1)).isEmpty then []
    else credential (s.takeWhile (· != ':')) ((s.dropWhile (· != ':')).drop 1) ++ ['@'] := rfl

/-- The password as it stands behind the colon. -/
def passwordText (password : List Char) : List Char :=
  if password.isEmpty then [] else Percent.encode Percent.userinfo password

theorem credential_encode (name password : List Char) :
    credential (Percent.encode Percent.userinfo name) (passwordText password) =
      credential name password := by
  unfold credential passwordText
  rw [encode_userinfo]
  cases password with
  | nil => rfl
  | cons c rest =>
      have hne : Percent.encode Percent.userinfo (c :: rest) ≠ [] :=
        Percent.encode_ne_nil (List.cons_ne_nil c rest)
      simp [hne, encode_userinfo]

theorem userinfoText_credential {name password : List Char} (hne : credential name password ≠ []) :
    userinfoText (credential name password) = credential name password ++ ['@'] := by
  have hcolon : ∀ c ∈ Percent.encode Percent.userinfo name, (c != ':') = true := fun c hc => by
    simp only [bne_iff_ne]
    rintro rfl
    exact Percent.not_mem_encode (by decide) (by decide) hc
  have hname : (credential name password).takeWhile (· != ':') =
      Percent.encode Percent.userinfo name := by
    rw [credential, List.takeWhile_append_of_pos hcolon]
    split <;> simp
  have hpassword : ((credential name password).dropWhile (· != ':')).drop 1 =
      passwordText password := by
    rw [credential, List.dropWhile_append_of_pos hcolon, passwordText]
    split <;> simp
  rw [userinfoText_eq, hname, hpassword, credential_encode, if_neg (by simpa using hne)]

/-- What stands in front of the host is nothing, or reads as it is written. -/
structure IsCredential (s : List Char) : Prop where
  sign : '@' ∉ s
  plain : ∀ c ∈ s, Host.isDelimiter c = false
  same : userinfoText s = s ++ ['@']

theorem userinfoText_cases (raw : List Char) :
    userinfoText raw = [] ∨ ∃ s, IsCredential s ∧ userinfoText raw = s ++ ['@'] := by
  rw [userinfoText_eq]
  generalize raw.takeWhile (· != ':') = name
  generalize (raw.dropWhile (· != ':')).drop 1 = password
  split
  · exact .inl rfl
  · next hne =>
    have hplain : ∀ c ∈ credential name password, Host.isDelimiter c = false := fun c hc => by
      unfold credential at hc
      rcases List.mem_append.mp hc with hname | hrest
      · exact isDelimiter_of_encode hname
      · split at hrest
        · simp at hrest
        · rcases List.mem_cons.mp hrest with rfl | hpassword
          · decide
          · exact isDelimiter_of_encode hpassword
    refine .inr ⟨_, ⟨fun hsign => absurd (hplain _ hsign) (by decide), hplain, ?_⟩, rfl⟩
    exact userinfoText_credential (by simpa using hne)

/-! ## Ports -/

def portText : Option Nat → List Char
  | none => []
  | some p => ':' :: (toString p).toList

theorem foldl_toDigits {p : Nat} (h : p ≤ 65535) : (Nat.toDigits 10 p).foldl
    (fun n d => min (n * 10 + (d.toNat - '0'.toNat)) 65536) 0 = p := by
  induction p using Nat.strongRecOn with
  | ind p ih =>
    have hdigit {d : Nat} (hd : d < 10) : d.digitChar.toNat - '0'.toNat = d :=
      Nat.toNat_digitChar_sub_48_of_lt_ten hd
    by_cases hp : p < 10
    · rw [Nat.toDigits_of_lt_base hp, List.foldl_cons, List.foldl_nil, hdigit hp]
      omega
    · rw [Nat.toDigits_of_base_le (by decide) (by omega), List.foldl_append,
        ih (p / 10) (by omega) (by omega), List.foldl_cons, List.foldl_nil,
        hdigit (Nat.mod_lt p (by decide))]
      omega

theorem readPort_portText {scheme : List Char} {port : Option Nat}
    (h : ∀ p, port = some p → p ≤ 65535 ∧ some p ≠ defaultPort? scheme) :
    readPort scheme ((portText port).drop 1) = .ok port := by
  cases port with
  | none => rfl
  | some p =>
      obtain ⟨hle, hne⟩ := h p rfl
      have htext : (portText (some p)).drop 1 = Nat.toDigits 10 p := by simp [portText]
      have hall : (Nat.toDigits 10 p).all Char.isDigit = true :=
        List.all_eq_true.mpr fun c hc => Nat.isDigit_of_mem_toDigits (by decide) (by decide) hc
      unfold readPort
      rw [htext, hall, foldl_toDigits hle]
      simp [Nat.toDigits_ne_nil, hne]
      omega

theorem bounds_of_readPort {scheme s : List Char} {port : Option Nat}
    (h : readPort scheme s = .ok port) :
    ∀ p, port = some p → p ≤ 65535 ∧ some p ≠ defaultPort? scheme := by
  rintro p rfl
  unfold readPort at h
  split at h
  · simp at h
  · dsimp only at h
    split at h
    · simp at h
    · next hle =>
      have h := Except.ok.inj h
      split at h
      · simp at h
      · next hport =>
        obtain rfl := Option.some.inj h
        simp only [Bool.or_eq_true, not_or, beq_iff_eq] at hport
        exact ⟨by omega, hport.2⟩

theorem isDigit_of_readPort {scheme s : List Char} {port : Option Nat}
    (h : readPort scheme s = .ok port) :
    ∀ c ∈ s, c.isDigit = true := by
  unfold readPort at h
  split at h
  · simp at h
  · next hall => simpa using hall

/-! ## Blanks behind an authority -/

theorem cutHost_cases (bracket : Bool) (s : List Char) :
    (cutHost bracket s).1 ++ (cutHost bracket s).2 = s ∧
      ((cutHost bracket s).2 = [] ∨ ∃ port, (cutHost bracket s).2 = ':' :: port) := by
  induction s generalizing bracket with
  | nil => exact ⟨rfl, .inl rfl⟩
  | cons c rest ih =>
      rw [cutHost]
      split
      · next hcolon =>
        obtain ⟨rfl, -⟩ : c = ':' ∧ bracket = false := by simpa using hcolon
        exact ⟨rfl, .inr ⟨rest, rfl⟩⟩
      · obtain ⟨hwhole, hport⟩ := ih (if c = '[' then true else if c = ']' then false else bracket)
        exact ⟨congrArg (c :: ·) hwhole, hport⟩

/-- Nothing is read as an authority that ends in a blank or a control character. -/
theorem eq_nil_of_readAuthority {scheme s blanks : List Char} {slashFollows : Bool}
    {read : List Char × List Char × Option Nat} (hspecial : isSpecial scheme = true)
    (hblanks : ∀ c ∈ blanks, c.toNat ≤ 0x20)
    (h : readAuthority scheme (s ++ blanks) slashFollows = .ok read) : blanks = [] := by
  obtain ⟨userinfo, host, port⟩ := read
  obtain ⟨hhost, hport, -⟩ := (readAuthority_eq_ok_iff hspecial).mp h
  obtain hnone | ⟨front, c, rfl⟩ := blanks.eq_nil_or_concat'
  · exact hnone
  · have hlow : c.toNat ≤ 0x20 := hblanks c (by simp)
    have hsign : '@' ∉ front ++ [c] := fun hmem => absurd (hblanks '@' hmem) (by decide)
    rw [behindAt_append hsign, ← List.append_assoc] at hhost hport
    obtain ⟨hwhole, hcut⟩ := cutHost_cases false (behindAt s ++ front ++ [c])
    exfalso
    rcases hcut with hempty | ⟨digits, hdigits⟩
    · rw [hempty, List.append_nil] at hwhole
      rw [hwhole] at hhost
      exact absurd (Host.lt_of_parse_concat hhost) (by omega)
    · rw [hdigits] at hwhole hport
      obtain hnone | ⟨more, d, rfl⟩ := digits.eq_nil_or_concat'
      · rw [hnone] at hwhole
        obtain ⟨-, hlast⟩ := List.append_inj' hwhole rfl
        obtain rfl : ':' = c := by simpa using hlast
        exact absurd hlow (by decide)
      · rw [← List.cons_append, ← List.append_assoc] at hwhole
        obtain ⟨-, hlast⟩ := List.append_inj' hwhole rfl
        obtain rfl : d = c := by simpa using hlast
        have hdigit := isDigit_of_readPort hport d (by simp)
        have hcode : 48 ≤ d.toNat := by
          simp only [Char.isDigit, Bool.and_eq_true, decide_eq_true_eq] at hdigit
          exact hdigit.1
        omega

/-! ## Reading back -/

/-- An authority as it is written. -/
def authority (userinfo host : List Char) (port : Option Nat) : List Char :=
  userinfo ++ (host ++ portText port)

section Written

variable {scheme s raw host : List Char} {port : Option Nat}

theorem isDelimiter_of_mem_portText {c : Char} (h : c ∈ portText port) :
    Host.isDelimiter c = false := by
  cases port with
  | none => simp [portText] at h
  | some p =>
      have hc : c = ':' ∨ c ∈ Nat.toDigits 10 p := by simpa [portText] using h
      rcases hc with rfl | hdigit
      · decide
      · have hread := Nat.isDigit_of_mem_toDigits (by decide) (by decide) hdigit
        exact Host.isDelimiter_of_isForbidden
          ((Host.isLabel_of_isDigit (l := [c]) (by simpa using hread)).2 c (by simp))

theorem readAuthority_authority (hspecial : isSpecial scheme = true)
    (hhost : Host.parse s = .ok host)
    (hport : ∀ p, port = some p → p ≤ 65535 ∧ some p ≠ defaultPort? scheme) (slashFollows : Bool) :
    readAuthority scheme (authority (userinfoText raw) host port) slashFollows =
      .ok (userinfoText raw, host, port) := by
  have hsign : '@' ∉ host ++ portText port := fun hmem => by
    rcases List.mem_append.mp hmem with hmem | hmem
    · exact absurd (Host.isDelimiter_of_parse hhost _ hmem) (by decide)
    · exact absurd (isDelimiter_of_mem_portText hmem) (by decide)
  have hcut : cutHost false (host ++ portText port) = (host, portText port) := by
    apply Host.cutHost_of_parse hhost
    cases port with
    | none => exact .inl rfl
    | some p => exact .inr rfl
  rw [readAuthority_eq_ok_iff hspecial]
  unfold authority
  rcases userinfoText_cases raw with hnone | ⟨name, hname, htext⟩
  · rw [hnone, List.nil_append, behindAt_of_not_mem hsign, beforeAt_of_not_mem hsign, hcut]
    exact ⟨Host.parse_parse hhost, readPort_portText hport, rfl⟩
  · have hwhole : name ++ ['@'] ++ (host ++ portText port) =
        name ++ '@' :: (host ++ portText port) := by
      simp
    rw [htext, hwhole, behindAt_sign hsign, beforeAt_sign hsign, hcut]
    exact ⟨Host.parse_parse hhost, readPort_portText hport, hname.same.symm⟩

theorem mem_authority (hhost : Host.parse s = .ok host) {c : Char}
    (h : c ∈ authority (userinfoText raw) host port) : Host.isDelimiter c = false ∨ c = '@' := by
  unfold authority at h
  rcases List.mem_append.mp h with huser | h
  · rcases userinfoText_cases raw with hnone | ⟨name, hname, htext⟩
    · rw [hnone] at huser
      exact absurd huser List.not_mem_nil
    · rw [htext] at huser
      rcases List.mem_append.mp huser with hmem | hmem
      · exact .inl (hname.plain c hmem)
      · exact .inr (List.mem_singleton.mp hmem)
  · rcases List.mem_append.mp h with hmem | hmem
    · exact .inl (Host.isDelimiter_of_parse hhost c hmem)
    · exact .inl (isDelimiter_of_mem_portText hmem)

end Written

end PartDepot.Url
