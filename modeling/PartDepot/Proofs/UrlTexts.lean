import Mathlib.Data.List.TakeWhile
import PartDepot.Proofs.Authorities
import PartDepot.Proofs.UrlPaths

/-!
# URLs and their text

A URL of the web, once read, is written as a text that reads as the same URL.  Slashes at the end of
the text do not matter for anything but slashes at the end of the path.
-/

namespace PartDepot.Url

/-! ## Cutting -/

theorem dropWhile_of_forall {p : Char → Bool} {s : List Char} (h : ∀ c ∈ s, p c = false) :
    s.dropWhile p = s := by
  cases s with
  | nil => rfl
  | cons c s => simp [h c List.mem_cons_self]

/-- A text that is cut somewhere is cut there with more behind it, too. -/
theorem cut_append {p : Char → Bool} {s : List Char} (h : s.dropWhile p ≠ []) (t : List Char) :
    (s ++ t).takeWhile p = s.takeWhile p ∧ (s ++ t).dropWhile p = s.dropWhile p ++ t := by
  have hlength := congrArg List.length (List.takeWhile_append_dropWhile (p := p) (l := s))
  have hpos := List.length_pos_iff.mpr h
  rw [List.length_append] at hlength
  rw [List.takeWhile_append, List.dropWhile_append, if_neg (by omega), if_neg (by simpa using h)]
  exact ⟨rfl, rfl⟩

theorem dropEndWhile_append (p : Char → Bool) (s : List Char) :
    ∃ t, s = Text.dropEndWhile p s ++ t ∧ ∀ c ∈ t, p c = true := by
  refine ⟨(s.reverse.takeWhile p).reverse, ?_, fun c hc => ?_⟩
  · unfold Text.dropEndWhile
    rw [← List.reverse_append, List.takeWhile_append_dropWhile, List.reverse_reverse]
  · exact List.mem_takeWhile_imp (List.mem_reverse.mp hc)

/-! ## Reading behind the scheme -/

def isSlash (c : Char) : Bool := c == '/' || c == '\\'

/-- The characters of an authority. -/
def inAuthority (c : Char) : Bool := !endsAuthority true c

theorem readAfterSlashes_eq {scheme : List Char} (hspecial : isSpecial scheme = true)
    (s : List Char) :
    readAfterSlashes scheme s =
      (readAuthority scheme (s.takeWhile inAuthority) (!(s.dropWhile inAuthority).isEmpty)).bind
        fun (userinfo, host, port) =>
          .ok
            { scheme, userinfo, host := some host, port
              path := readPath (cutTail true (s.dropWhile inAuthority)).1
              query := (cutTail true (s.dropWhile inAuthority)).2.1
              fragment := (cutTail true (s.dropWhile inAuthority)).2.2 } := by
  unfold readAfterSlashes
  rw [hspecial]
  congr 1

theorem bind_eq_ok {ε α β : Type} {x : Except ε α} {f : α → Except ε β} {b : β}
    (h : x >>= f = .ok b) :
    ∃ a, x = .ok a ∧ f a = .ok b := by
  cases x with
  | error e => cases h
  | ok a => exact ⟨a, rfl, h⟩

/-- All that the part of a URL behind the slashes has to be. -/
theorem readAfterSlashes_eq_ok_iff {scheme s : List Char} {u : Url}
    (hspecial : isSpecial scheme = true) :
    readAfterSlashes scheme s = .ok u ↔ ∃ host,
      readAuthority scheme (s.takeWhile inAuthority) (!(s.dropWhile inAuthority).isEmpty) =
        .ok (u.userinfo, host, u.port) ∧
      u.scheme = scheme ∧ u.host = some host ∧
      u.path = readPath (cutTail true (s.dropWhile inAuthority)).1 ∧
      (u.query, u.fragment) = (cutTail true (s.dropWhile inAuthority)).2 := by
  rw [readAfterSlashes_eq hspecial]
  constructor
  · intro h
    obtain ⟨⟨userinfo, host, port⟩, hauthority, h⟩ := bind_eq_ok h
    obtain rfl := Except.ok.inj h
    exact ⟨host, hauthority, rfl, rfl, rfl, rfl⟩
  · rintro ⟨host, hauthority, rfl, hhost, hpath, htail⟩
    rw [hauthority, ← htail, ← hpath]
    dsimp only [Except.bind]
    rw [← hhost]

theorem readAfterSlashes_scheme {scheme s : List Char} {u : Url}
    (h : readAfterSlashes scheme s = .ok u) : u.scheme = scheme := by
  obtain ⟨⟨userinfo, host, port⟩, -, h⟩ := bind_eq_ok h
  rw [← Except.ok.inj h]

theorem readFile_scheme {scheme s : List Char} {u : Url} (h : readFile scheme s = .ok u) :
    u.scheme = scheme := by
  unfold readFile at h
  rcases cutTail true s with ⟨body, query, fragment⟩
  dsimp only at h
  split at h
  · split at h
    · split at h
      · rw [← Except.ok.inj h]
      · obtain ⟨host, -, h⟩ := bind_eq_ok h
        rw [← Except.ok.inj h]
    · rw [← Except.ok.inj h]
  · rw [← Except.ok.inj h]
  · rw [← Except.ok.inj h]

theorem scheme_of_isHttp {u : Url} (h : u.isHttp = true) :
    u.scheme = "http".toList ∨ u.scheme = "https".toList := by
  simp only [isHttp, Bool.and_eq_true, Bool.or_eq_true, beq_iff_eq] at h
  exact h.1

theorem isSpecial_of_isHttp {u : Url} (h : u.isHttp = true) : isSpecial u.scheme = true := by
  rcases scheme_of_isHttp h with h | h <;> rw [h] <;> decide

theorem scheme_chars {scheme : List Char} (h : scheme = "http".toList ∨ scheme = "https".toList) :
    scheme.all (0x20 < ·.toNat) = true := by
  rcases h with rfl | rfl <;> decide

/-- A URL of the web is read behind the slashes behind its scheme. -/
theorem parse_of_isHttp {text : String} {u : Url} (h : parse text = .ok u)
    (hhttp : u.isHttp = true) :
    ∃ rest, cutScheme (clean text.toList) = some (u.scheme, rest) ∧
      readAfterSlashes u.scheme (rest.dropWhile isSlash) = .ok u := by
  have hscheme := scheme_of_isHttp hhttp
  have hfile : ∀ {scheme : List Char}, u.scheme = scheme → scheme ≠ "file".toList := by
    rintro scheme rfl hfile
    rw [hfile] at hscheme
    exact absurd hscheme (by decide)
  have hspecial : ∀ {scheme : List Char}, u.scheme = scheme → isSpecial scheme = true := by
    rintro scheme rfl
    exact isSpecial_of_isHttp hhttp
  unfold parse at h
  dsimp only at h
  split at h
  · simp at h
  · next scheme rest hcut =>
    split at h
    · next hname => exact absurd (by simpa using hname) (hfile (readFile_scheme h))
    · split at h
      · obtain rfl := readAfterSlashes_scheme h
        exact ⟨rest, hcut, h⟩
      · next hother =>
        split at h
        · exact absurd (hspecial (readAfterSlashes_scheme h)) hother
        · exact absurd (hspecial (by rw [← Except.ok.inj h])) hother
        · exact absurd (hspecial (by rw [← Except.ok.inj h])) hother

theorem parse_of_cutScheme {text : String} {scheme rest : List Char}
    (hscheme : scheme = "http".toList ∨ scheme = "https".toList)
    (hcut : cutScheme (clean text.toList) = some (scheme, rest)) :
    parse text = readAfterSlashes scheme (rest.dropWhile isSlash) := by
  unfold parse
  dsimp only
  rw [hcut]
  rcases hscheme with rfl | rfl <;> rfl

/-! ## Query and fragment -/

theorem cutTail_of_plain {s : List Char} (h : ∀ c ∈ s, c ≠ '?' ∧ c ≠ '#') :
    cutTail true s = (s, none, none) := by
  have hsharp : ∀ c ∈ s, (c != '#') = true := fun c hc => by simpa using (h c hc).2
  have hmark : ∀ c ∈ s, (c != '?') = true := fun c hc => by simpa using (h c hc).1
  have htake {p : Char → Bool} (hp : ∀ c ∈ s, p c = true) : s.takeWhile p = s ∧
      s.dropWhile p = [] := by
    rw [List.takeWhile_eq_self_iff, List.dropWhile_eq_nil_iff]
    exact ⟨hp, hp⟩
  unfold cutTail
  rw [(htake hsharp).1, (htake hsharp).2]
  dsimp only
  rw [(htake hmark).1, (htake hmark).2]

theorem plain_of_cutTail {s : List Char} (hquery : (cutTail true s).2.1 = none)
    (hfragment : (cutTail true s).2.2 = none) : ∀ c ∈ s, c ≠ '?' ∧ c ≠ '#' := by
  have hsharp : s.dropWhile (· != '#') = [] := by
    simp only [cutTail] at hfragment
    split at hfragment
    · simp at hfragment
    · assumption
  have hbody : s.takeWhile (· != '#') = s :=
    List.takeWhile_eq_self_iff.mpr (List.dropWhile_eq_nil_iff.mp hsharp)
  have hmark : s.dropWhile (· != '?') = [] := by
    simp only [cutTail, hbody] at hquery
    split at hquery
    · simp at hquery
    · assumption
  intro c hc
  exact ⟨by simpa using List.dropWhile_eq_nil_iff.mp hmark c hc,
    by simpa using List.dropWhile_eq_nil_iff.mp hsharp c hc⟩

/-! ## URLs of the web -/

/-- A URL of the web with a path from the root, whatever its query and its fragment are. -/
structure IsLocated (u : Url) : Prop where
  http : u.isHttp = true
  authority : ∃ raw text host, u.userinfo = userinfoText raw ∧ Host.parse text = .ok host ∧
    u.host = some host
  port : ∀ p, u.port = some p → p ≤ 65535 ∧ some p ≠ defaultPort? u.scheme
  path : u.path.head? = some '/'

/-- A URL of the web as it is kept, without query and fragment. -/
structure IsWeb (u : Url) : Prop where
  http : u.isHttp = true
  authority : ∃ raw text host, u.userinfo = userinfoText raw ∧ Host.parse text = .ok host ∧
    u.host = some host
  port : ∀ p, u.port = some p → p ≤ 65535 ∧ some p ≠ defaultPort? u.scheme
  path : IsPath u.path
  query : u.query = none
  fragment : u.fragment = none

theorem IsPath.exists_eq_cons {path : List Char} (h : IsPath path) :
    ∃ rest, path = '/' :: rest := by
  obtain ⟨segments, hne, -, rfl⟩ := h
  obtain ⟨s, rest, rfl⟩ := List.exists_cons_of_ne_nil hne
  exact ⟨_, joined_cons s rest⟩

theorem located_of_parse {text : String} {u : Url} (h : parse text = .ok u)
    (hhttp : u.isHttp = true) :
    IsLocated u ∧ IsPath u.path := by
  have hspecial := isSpecial_of_isHttp hhttp
  obtain ⟨rest, -, h⟩ := parse_of_isHttp h hhttp
  obtain ⟨host, hauthority, -, hu, hpath, -⟩ := (readAfterSlashes_eq_ok_iff hspecial).mp h
  obtain ⟨hhost, hport, hraw⟩ := (readAuthority_eq_ok_iff hspecial).mp hauthority
  have hread : IsPath u.path := hpath ▸ isPath_readPath _
  obtain ⟨path, hrooted⟩ := hread.exists_eq_cons
  exact ⟨⟨hhttp, ⟨_, _, host, hraw, hhost, hu⟩, bounds_of_readPort hport, by rw [hrooted]; rfl⟩,
    hread⟩

theorem isWeb_of_parse {text : String} {u : Url} (h : parse text = .ok u) (hhttp : u.isHttp = true)
    (hquery : u.query = none) (hfragment : u.fragment = none) : IsWeb u := by
  obtain ⟨hlocated, hpath⟩ := located_of_parse h hhttp
  exact ⟨hhttp, hlocated.authority, hlocated.port, hpath, hquery, hfragment⟩

/-- A blank or control character, which does not count at the ends of a text. -/
def isOuter (c : Char) : Bool := c.toNat ≤ 0x20

theorem clean_eq (s : List Char) : clean s =
    (Text.dropEndWhile isOuter (s.dropWhile isOuter)).filter (!isTabOrBreak ·) := rfl

/-- A text without blanks and control characters. -/
def IsDense (s : List Char) : Prop := ∀ c ∈ s, 0x20 < c.toNat

namespace IsDense

variable {s : List Char}

theorem not_isOuter (h : IsDense s) : ∀ c ∈ s, isOuter c = false := fun c hc => by
  have := h c hc
  simp only [isOuter, decide_eq_false_iff_not]
  omega

theorem filter_eq (h : IsDense s) : s.filter (!isTabOrBreak ·) = s := by
  rw [List.filter_eq_self]
  intro c hc
  have hlow : c ≠ '\t' ∧ c ≠ '\n' ∧ c ≠ '\r' := by
    refine ⟨?_, ?_, ?_⟩ <;> rintro rfl <;> exact absurd (h _ hc) (by decide)
  simp [isTabOrBreak, hlow]

/-- Nothing is dropped from a text without blanks and control characters. -/
theorem clean_eq (h : IsDense s) : clean s = s := by
  have hend : Text.dropEndWhile isOuter s = s := by
    unfold Text.dropEndWhile
    rw [dropWhile_of_forall fun c hc => h.not_isOuter c (List.mem_reverse.mp hc),
      List.reverse_reverse]
  rw [Url.clean_eq, dropWhile_of_forall h.not_isOuter, hend, h.filter_eq]

end IsDense

theorem mem_path {path : List Char} (h : IsPath path) {c : Char} (hc : c ∈ path) :
    0x20 < c.toNat ∧ c ≠ '?' ∧ c ≠ '#' := by
  obtain ⟨segments, -, hplain, rfl⟩ := h
  obtain ⟨s, hs, hmem⟩ := List.mem_flatMap.mp hc
  rcases List.mem_cons.mp hmem with rfl | hmem
  · decide
  · obtain ⟨hlow, -, hset⟩ := (hplain s hs).chars c hmem
    have hspace : c.toNat ≠ 0x20 := fun heq => by
      obtain rfl : c = ' ' := Char.toNat_inj.mp heq
      exact absurd hset (by decide)
    refine ⟨by omega, ?_, ?_⟩ <;> rintro rfl <;> exact absurd hset (by decide)

theorem not_isSlash_of_inAuthority {c : Char} (h : inAuthority c = true) : isSlash c = false := by
  cases hslash : isSlash c with
  | false => rfl
  | true =>
      simp only [isSlash, Bool.or_eq_true, beq_iff_eq] at hslash
      rcases hslash with rfl | rfl <;> exact absurd h (by decide)

theorem inAuthority_of_isDelimiter {c : Char} (h : Host.isDelimiter c = false ∨ c = '@') :
    0x20 < c.toNat ∧ inAuthority c = true := by
  rcases h with h | rfl
  · simp only [Host.isDelimiter, Bool.or_eq_false_iff, decide_eq_false_iff_not] at h
    have hset := h.2
    refine ⟨by omega, ?_⟩
    unfold inAuthority
    cases hends : endsAuthority true c with
    | false => rfl
    | true =>
        simp only [endsAuthority, Bool.or_eq_true, Bool.and_eq_true, beq_iff_eq, true_and] at hends
        rcases hends with ((rfl | rfl) | rfl) | rfl <;> exact absurd hset (by decide)
  · decide

section Written

variable {name raw host scheme : List Char} {port : Option Nat}

theorem written_chars (hhost : Host.parse name = .ok host) {c : Char}
    (hc : c ∈ Url.authority (userinfoText raw) host port) : 0x20 < c.toNat ∧ inAuthority c = true :=
  inAuthority_of_isDelimiter (mem_authority hhost hc)

/-- A written authority is what is read behind slashes, up to what ends it. -/
theorem cut_written (hhost : Host.parse name = .ok host) {rest : List Char}
    (hrest : rest.takeWhile inAuthority = []) :
    let written := Url.authority (userinfoText raw) host port
    ('/' :: '/' :: (written ++ rest)).dropWhile isSlash = written ++ rest ∧
      (written ++ rest).takeWhile inAuthority = written ∧
      (written ++ rest).dropWhile inAuthority = rest := by
  intro written
  have hall : ∀ c ∈ written, inAuthority c = true := fun c hc => (written_chars hhost hc).2
  have hne : written ≠ [] := by simp [written, Url.authority, (parse_ne_nil hhost).2]
  refine ⟨?_, ?_, ?_⟩
  · obtain ⟨c, more, hwritten⟩ := List.exists_cons_of_ne_nil hne
    have hc : isSlash c = false := not_isSlash_of_inAuthority (hall c (by simp [hwritten]))
    have hslash : isSlash '/' = true := rfl
    simp [hwritten, hc, hslash]
  · rw [List.takeWhile_append_of_pos hall, hrest, List.append_nil]
  · rw [List.dropWhile_append_of_pos hall]
    simpa [hrest] using List.takeWhile_append_dropWhile (p := inAuthority) (l := rest)

theorem cutScheme_written (hscheme : scheme = "http".toList ∨ scheme = "https".toList)
    (s : List Char) :
    cutScheme (scheme ++ ':' :: s) = some (scheme, s) := by
  rcases hscheme with rfl | rfl <;> rfl

end Written

section Text

variable {u : Url}

theorem authorityText_of_host {host : List Char} (h : u.host = some host) :
    u.authorityText = '/' :: '/' :: Url.authority u.userinfo host u.port := by
  unfold authorityText Url.authority portText
  rw [h]
  cases u.port <;> simp

theorem text_eq (u : Url) : ∃ tail,
    u.text.toList = u.scheme ++ ':' :: u.authorityText ++ (u.path ++ tail) ∧
      (u.query = none → u.fragment = none → tail = []) := by
  unfold text
  cases u.fragment with
  | none =>
      refine ⟨u.queryText, by simp, fun hquery _ => ?_⟩
      rw [queryText, hquery]
  | some f => exact ⟨u.queryText ++ '#' :: f, by simp, fun _ hfragment => by cases hfragment⟩

/-- What stands in front of the path of a written URL. -/
theorem IsLocated.isDense_front (h : IsLocated u) :
    IsDense (u.scheme ++ ':' :: u.authorityText) := by
  obtain ⟨raw, name, host, huser, hparse, hhost⟩ := h.authority
  rw [authorityText_of_host hhost, huser]
  intro c hc
  simp only [List.mem_append, List.mem_cons] at hc
  rcases hc with hmem | rfl | rfl | rfl | hmem
  · simpa using List.all_eq_true.mp (scheme_chars (scheme_of_isHttp h.http)) c hmem
  · decide
  · decide
  · decide
  · exact (written_chars hparse hmem).1

end Text

namespace IsWeb

variable {u : Url}

theorem isLocated (h : IsWeb u) : IsLocated u := by
  obtain ⟨path, hpath⟩ := h.path.exists_eq_cons
  exact ⟨h.http, h.authority, h.port, by rw [hpath]; rfl⟩

/-- The text of a URL reads as the URL. -/
theorem parse_text (h : IsWeb u) : parse u.text = .ok u := by
  obtain ⟨raw, name, host, huser, hparse, hhost⟩ := h.authority
  have hspecial := isSpecial_of_isHttp h.http
  have hscheme := scheme_of_isHttp h.http
  have hread := @readAuthority_authority u.scheme name raw host u.port hspecial hparse h.port true
  obtain ⟨tail, htext, hnone⟩ := u.text_eq
  obtain ⟨segments, hpath⟩ := h.path.exists_eq_cons
  obtain ⟨hslash, htake, hdrop⟩ :=
    @cut_written name raw host u.port hparse u.path (by rw [hpath]; rfl)
  rw [hnone h.query h.fragment, List.append_nil] at htext
  have hclean : clean u.text.toList = u.scheme ++ ':' :: (u.authorityText ++ u.path) := by
    rw [htext, ← List.cons_append, ← List.append_assoc]
    apply IsDense.clean_eq
    intro c hc
    rcases List.mem_append.mp hc with hmem | hmem
    · exact h.isLocated.isDense_front c hmem
    · exact (mem_path h.path hmem).1
  have hcut := cutScheme_written hscheme (u.authorityText ++ u.path)
  rw [← hclean, authorityText_of_host hhost, huser] at hcut
  have htail := cutTail_of_plain fun c hc => (mem_path h.path hc).2
  rw [parse_of_cutScheme hscheme hcut, List.cons_append, List.cons_append, hslash,
    readAfterSlashes_eq_ok_iff hspecial, htake, hdrop, htail, readPath_of_isPath h.path, h.query,
    h.fragment, huser]
  exact ⟨host, readAuthority_flag hspecial hread _, rfl, hhost, rfl, rfl⟩

end IsWeb

/-! ## Slashes at the end of a text -/

theorem slashes_behind (s : List Char) :
    ∃ n, s = Text.dropEndWhile (· == '/') s ++ List.replicate n '/' := by
  obtain ⟨slashes, hsplit, hslashes⟩ := dropEndWhile_append (· == '/') s
  exact ⟨slashes.length,
    by rwa [← List.eq_replicate_of_mem fun c hc => by simpa using hslashes c hc]⟩

def isSchemeChar (c : Char) : Bool := c.isAlphanum || c == '+' || c == '-' || c == '.'

/-- A blank ends no authority, is no slash and stands in no scheme. -/
theorem blank_cases {c : Char} (h : c.toNat ≤ 0x20) :
    inAuthority c = true ∧ isSlash c = false ∧ isSchemeChar c = false ∧ c ≠ ':' :=
  Host.forall_ascii (P := fun c => c.toNat ≤ 0x20 →
    inAuthority c = true ∧ isSlash c = false ∧ isSchemeChar c = false ∧ c ≠ ':')
    (by decide +kernel) (by omega) h

/-- Tabs and breaks left aside, a text does not end in a blank or control character. -/
def EndsPlain (s : List Char) : Prop :=
  ∀ c, (s.filter (!isTabOrBreak ·)).getLast? = some c → 0x20 < c.toNat

/-- Nothing is dropped at the end of what stands in front of a slash. -/
theorem clean_slash (s t : List Char) : clean (s ++ '/' :: t) =
    (s.dropWhile isOuter).filter (!isTabOrBreak ·) ++
      '/' :: (Text.dropEndWhile isOuter t).filter (!isTabOrBreak ·) := by
  have hslash : isOuter '/' = false := rfl
  have hdrop : (s ++ '/' :: t).dropWhile isOuter = s.dropWhile isOuter ++ '/' :: t := by
    by_cases hall : s.dropWhile isOuter = []
    · rw [List.dropWhile_append_of_pos (List.dropWhile_eq_nil_iff.mp hall), hall]
      rfl
    · exact (cut_append hall _).2
  have hend (front : List Char) : Text.dropEndWhile isOuter (front ++ '/' :: t) =
      front ++ '/' :: Text.dropEndWhile isOuter t := by
    unfold Text.dropEndWhile
    rw [List.reverse_append, List.reverse_cons]
    by_cases hall : t.reverse.dropWhile isOuter = []
    · rw [List.append_assoc, List.dropWhile_append_of_pos (List.dropWhile_eq_nil_iff.mp hall), hall]
      simp [hslash]
    · rw [List.append_assoc, (cut_append hall _).2]
      simp
  rw [clean_eq, hdrop, hend, List.filter_append, List.filter_cons_of_pos (by decide)]

/-- A slash ends what is dropped at the end of a text. -/
theorem clean_slashes (s : List Char) (n : Nat) : clean (s ++ List.replicate (n + 1) '/') =
    (s.dropWhile isOuter).filter (!isTabOrBreak ·) ++ List.replicate (n + 1) '/' := by
  have hend : Text.dropEndWhile isOuter (List.replicate n '/') = List.replicate n '/' := by
    unfold Text.dropEndWhile
    rw [List.reverse_replicate, dropWhile_of_forall fun c hc => ?_, List.reverse_replicate]
    rw [List.eq_of_mem_replicate hc]
    rfl
  have hkept : (List.replicate n '/').filter (!isTabOrBreak ·) = List.replicate n '/' := by
    rw [List.filter_eq_self]
    intro c hc
    rw [List.eq_of_mem_replicate hc]
    rfl
  rw [List.replicate_succ, clean_slash, hend, hkept]

/-- What is dropped at the end of a text. -/
theorem clean_append_blanks (s : List Char) : ∃ blanks,
    (s.dropWhile isOuter).filter (!isTabOrBreak ·) = clean s ++ blanks ∧
      (∀ c ∈ blanks, c.toNat ≤ 0x20) ∧ (EndsPlain s → blanks = []) := by
  obtain ⟨outer, hsplit, houter⟩ := dropEndWhile_append isOuter (s.dropWhile isOuter)
  have hinner : (s.dropWhile isOuter).filter (!isTabOrBreak ·) =
      clean s ++ outer.filter (!isTabOrBreak ·) := by
    rw [clean_eq, ← List.filter_append, ← hsplit]
  have hlow : ∀ c ∈ outer.filter (!isTabOrBreak ·), c.toNat ≤ 0x20 := fun c hc => by
    simpa [isOuter] using houter c (List.mem_filter.mp hc).1
  refine ⟨_, hinner, hlow, fun hend => ?_⟩
  obtain hnil | ⟨front, c, hblanks⟩ := (outer.filter (!isTabOrBreak ·)).eq_nil_or_concat'
  · exact hnil
  · have hwhole : s.filter (!isTabOrBreak ·) =
        (s.takeWhile isOuter).filter (!isTabOrBreak ·) ++ (clean s ++ (front ++ [c])) := by
      rw [← hblanks, ← hinner, ← List.filter_append, List.takeWhile_append_dropWhile]
    have hhigh := hend c (by simp [hwhole])
    have := hlow c (by simp [hblanks])
    omega

/-- Slashes at the end of a text stay, and so do blanks in front of them. -/
theorem clean_append_slashes (s : List Char) (n : Nat) : ∃ blanks,
    clean (s ++ List.replicate n '/') = clean s ++ (blanks ++ List.replicate n '/') ∧
      (∀ c ∈ blanks, c.toNat ≤ 0x20) ∧ (EndsPlain s → blanks = []) := by
  cases n with
  | zero => exact ⟨[], by simp, by simp, fun _ => rfl⟩
  | succ n =>
      obtain ⟨blanks, hsplit, hblanks⟩ := clean_append_blanks s
      exact ⟨blanks, by rw [clean_slashes, hsplit, List.append_assoc], hblanks⟩

theorem cutScheme_eq (s : List Char) : cutScheme s =
    match s.dropWhile isSchemeChar with
    | ':' :: rest =>
      if (s.takeWhile isSchemeChar).head?.any Char.isAlpha then
        some ((s.takeWhile isSchemeChar).map Char.toLower, rest)
      else none
    | _ => none := rfl

theorem cutScheme_append {s t scheme rest : List Char}
    (ht : ∀ c ∈ t, isSchemeChar c = false ∧ c ≠ ':')
    (h : cutScheme (s ++ t) = some (scheme, rest)) :
    ∃ r, cutScheme s = some (scheme, r) ∧ rest = r ++ t := by
  rw [cutScheme_eq] at h ⊢
  have hother := fun c hc => (ht c hc).1
  by_cases hall : s.dropWhile isSchemeChar = []
  · rw [List.dropWhile_append_of_pos (List.dropWhile_eq_nil_iff.mp hall),
      dropWhile_of_forall hother] at h
    split at h
    · exact absurd rfl (ht ':' List.mem_cons_self).2
    · simp at h
  · rw [(cut_append hall t).1, (cut_append hall t).2] at h
    obtain ⟨c, r, hdrop⟩ := List.exists_cons_of_ne_nil hall
    rw [hdrop] at h ⊢
    rw [List.cons_append] at h
    split at h
    · next rest' heq =>
      obtain ⟨rfl, rfl⟩ := List.cons.inj heq
      split at h
      · next halpha =>
        obtain ⟨rfl, rfl⟩ : _ ∧ _ := by simpa using h
        exact ⟨r, if_pos halpha, rfl⟩
      · simp at h
    · simp at h

/-- Blanks behind an authority, and what ends it, are no part of it, if it is read at all. -/
theorem inAuthority_append {scheme s blanks rest : List Char} {slashFollows : Bool}
    {read : List Char × List Char × Option Nat} (hspecial : isSpecial scheme = true)
    (hblanks : ∀ c ∈ blanks, c.toNat ≤ 0x20) (hrest : rest.takeWhile inAuthority = [])
    (h : readAuthority scheme ((s ++ (blanks ++ rest)).takeWhile inAuthority) slashFollows =
      .ok read) :
    (s ++ (blanks ++ rest)).takeWhile inAuthority = s.takeWhile inAuthority ∧
      (s ++ (blanks ++ rest)).dropWhile inAuthority = s.dropWhile inAuthority ++
        (blanks ++ rest) := by
  by_cases hall : s.dropWhile inAuthority = []
  · -- The authority would go on into the blanks, and no host is read with a blank at its end.
    have hs := List.dropWhile_eq_nil_iff.mp hall
    have hin : ∀ c ∈ blanks, inAuthority c = true := fun c hc => (blank_cases (hblanks c hc)).1
    have hbehind : rest.dropWhile inAuthority = rest := by
      simpa [hrest] using List.takeWhile_append_dropWhile (p := inAuthority) (l := rest)
    rw [List.takeWhile_append_of_pos hs, List.takeWhile_append_of_pos hin, hrest,
      List.append_nil] at h
    rw [eq_nil_of_readAuthority hspecial hblanks h, List.nil_append,
      List.takeWhile_append_of_pos hs, List.dropWhile_append_of_pos hs, hbehind, hrest,
      List.takeWhile_eq_self_iff.mpr hs, hall]
    exact ⟨List.append_nil s, rfl⟩
  · exact cut_append hall _

theorem takeWhile_inAuthority_slashes (n : Nat) :
    (List.replicate n '/').takeWhile inAuthority = [] := by
  cases n <;> rfl

/-- Slashes behind a URL, and blanks in front of them, are a matter of its path. -/
theorem readAfterSlashes_append {scheme s blanks : List Char} {n : Nat} {u : Url}
    (hspecial : isSpecial scheme = true) (hblanks : ∀ c ∈ blanks, c.toNat ≤ 0x20)
    (h : readAfterSlashes scheme (s ++ (blanks ++ List.replicate n '/')) = .ok u)
    (hquery : u.query = none) (hfragment : u.fragment = none) :
    ∃ path, readAfterSlashes scheme s = .ok { u with path } ∧ (blanks = [] →
      Text.dropEndWhile (· == '/') path = Text.dropEndWhile (· == '/') u.path) := by
  obtain ⟨host, hauthority, hscheme, hhost, hpath, htail⟩ :=
    (readAfterSlashes_eq_ok_iff hspecial).mp h
  obtain ⟨htake, hdrop⟩ :=
    inAuthority_append hspecial hblanks (takeWhile_inAuthority_slashes n) hauthority
  rw [htake, hdrop] at hauthority
  rw [hdrop] at hpath htail
  have hplain := plain_of_cutTail (s := s.dropWhile inAuthority ++ (blanks ++ List.replicate n '/'))
    (by rw [← htail, hquery]) (by rw [← htail, hfragment])
  have hrest := cutTail_of_plain fun c hc => hplain c (List.mem_append_left _ hc)
  rw [cutTail_of_plain hplain] at hpath
  refine ⟨readPath (s.dropWhile inAuthority), ?_, ?_⟩
  · rw [readAfterSlashes_eq_ok_iff hspecial, hrest, hquery, hfragment]
    exact ⟨host, readAuthority_flag hspecial hauthority _, hscheme, hhost, rfl, rfl⟩
  · rintro rfl
    rw [hpath, List.nil_append, dropEndWhile_readPath]

theorem dropWhile_isSlash_append (s : List Char) (n : Nat) {blanks : List Char}
    (hblanks : ∀ c ∈ blanks, c.toNat ≤ 0x20) : ∃ m,
    (s ++ (blanks ++ List.replicate n '/')).dropWhile isSlash =
      s.dropWhile isSlash ++ (blanks ++ List.replicate m '/') := by
  by_cases hall : s.dropWhile isSlash = []
  · rw [List.dropWhile_append_of_pos (List.dropWhile_eq_nil_iff.mp hall), hall]
    cases blanks with
    | nil =>
        refine ⟨0, List.dropWhile_eq_nil_iff.mpr fun c hc => ?_⟩
        rw [List.eq_of_mem_replicate hc]
        rfl
    | cons c blanks => exact ⟨n, by simp [(blank_cases (hblanks c List.mem_cons_self)).2.1]⟩
  · exact ⟨n, (cut_append hall _).2⟩

/-- What is read behind the scheme of a text, and without the slashes at the end of the text. -/
theorem cut_trimEnd {text : String} {scheme rest : List Char}
    (h : cutScheme (clean text.toList) = some (scheme, rest)) : ∃ r blanks n,
    cutScheme (clean (Text.trimEnd '/' text).toList) = some (scheme, r) ∧
      rest.dropWhile isSlash = r.dropWhile isSlash ++ (blanks ++ List.replicate n '/') ∧
      (∀ c ∈ blanks, c.toNat ≤ 0x20) ∧
      (EndsPlain (Text.trimEnd '/' text).toList → blanks = []) := by
  have htrimmed : (Text.trimEnd '/' text).toList = Text.dropEndWhile (· == '/') text.toList := by
    simp [Text.trimEnd]
  obtain ⟨n, htext⟩ := slashes_behind text.toList
  rw [← htrimmed] at htext
  obtain ⟨blanks, hclean, hblanks, hnone⟩ := clean_append_slashes (Text.trimEnd '/' text).toList n
  rw [htext, hclean] at h
  have hbehind : ∀ c ∈ blanks ++ List.replicate n '/', isSchemeChar c = false ∧ c ≠ ':' :=
    fun c hc => by
    rcases List.mem_append.mp hc with hmem | hmem
    · exact (blank_cases (hblanks c hmem)).2.2
    · rw [List.eq_of_mem_replicate hmem]
      decide
  obtain ⟨r, hprefix, rfl⟩ := cutScheme_append hbehind h
  obtain ⟨m, hafter⟩ := dropWhile_isSlash_append r n hblanks
  exact ⟨r, blanks, m, hprefix, hafter, hblanks, hnone⟩

/-- Slashes at the end of a text are a matter of the path. -/
theorem parse_trimEnd {text : String} {u : Url} (h : parse text = .ok u) (hhttp : u.isHttp = true)
    (hquery : u.query = none) (hfragment : u.fragment = none) :
    ∃ path, parse (Text.trimEnd '/' text) = .ok { u with path } ∧
      (EndsPlain (Text.trimEnd '/' text).toList →
        Text.dropEndWhile (· == '/') path = Text.dropEndWhile (· == '/') u.path) := by
  obtain ⟨rest, hcut, hread⟩ := parse_of_isHttp h hhttp
  obtain ⟨r, blanks, n, hprefix, hafter, hblanks, hnone⟩ := cut_trimEnd hcut
  rw [hafter] at hread
  obtain ⟨path, htrim, hpath⟩ :=
    readAfterSlashes_append (isSpecial_of_isHttp hhttp) hblanks hread hquery hfragment
  refine ⟨path, ?_, fun hend => hpath (hnone hend)⟩
  rw [parse_of_cutScheme (scheme_of_isHttp hhttp) hprefix, htrim]

/-- Slashes are left at the end of a stem only where the path ends in two. -/
theorem stem_eq {u : Url} (hpath : IsPath u.path) : ∃ n,
    u.stem = Text.dropEndWhile (· == '/') u.path ++ List.replicate n '/' ∧
      (¬['/', '/'] <:+ u.path → n = 0) := by
  obtain ⟨n, hstem⟩ := slashes_behind u.stem
  rw [dropEndWhile_stem hpath] at hstem
  refine ⟨n, hstem, fun hend => ?_⟩
  cases n with
  | zero => rfl
  | succ n =>
      rw [List.replicate_succ', ← List.append_assoc] at hstem
      exact absurd ⟨_, (path_of_stem hstem).symm⟩ hend

end PartDepot.Url
