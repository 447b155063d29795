import PartDepot.Proofs.Asking
import PartDepot.Proofs.SegmentUrls

/-!
# The origin of the catalog

Scheme, host and port of a URL are settled in front of the first slash behind the host.  All that
a call puts behind the address of the catalog stands behind such a slash, so no path and no
segments lead a request to another host.  Blanks at the end of the address would get into the
host; then the text is no URL, and nothing is sent.
-/

namespace PartDepot

namespace Url

/-- Two URLs have scheme, host and port in common. -/
structure SameOrigin (u v : Url) : Prop where
  scheme : u.scheme = v.scheme
  host : u.host = v.host
  port : u.port = v.port

theorem SameOrigin.trans {u v w : Url} (h : u.SameOrigin v) (h' : v.SameOrigin w) :
    u.SameOrigin w :=
  ⟨h.scheme.trans h'.scheme, h.host.trans h'.host, h.port.trans h'.port⟩

theorem SameOrigin.isHttp {u v : Url} (h : u.SameOrigin v) : u.isHttp = v.isHttp := by
  unfold Url.isHttp
  rw [h.scheme, h.host]

/-! ## Texts that open with an origin -/

theorem cutScheme_of_prefix {s scheme rest : List Char} (h : cutScheme s = some (scheme, rest))
    (t : List Char) : cutScheme (s ++ t) = some (scheme, rest ++ t) := by
  rw [cutScheme_eq] at h ⊢
  have hcut : s.dropWhile isSchemeChar ≠ [] := by
    intro hnil
    simp [hnil] at h
  rw [(cut_append hcut t).1, (cut_append hcut t).2]
  split at h
  · next r hdrop =>
    rw [hdrop]
    split at h
    · next halpha =>
      obtain ⟨rfl, rfl⟩ := Prod.mk.inj (Option.some.inj h)
      exact if_pos halpha
    · simp at h
  · simp at h

/-- A cleaned text opens with the scheme and the authority of a URL. -/
def Opens (s : List Char) (u : Url) : Prop :=
  ∃ rest host, cutScheme s = some (u.scheme, rest) ∧ u.host = some host ∧
    readAuthority u.scheme ((rest.dropWhile isSlash).takeWhile inAuthority) true =
      .ok (u.userinfo, host, u.port)

section Opening

variable {text : String} {s blanks rest : List Char} {u v : Url}

theorem opens_of_parse (h : parse text = .ok u) (hhttp : u.isHttp = true) :
    Opens (clean text.toList) u := by
  have hspecial := isSpecial_of_isHttp hhttp
  obtain ⟨rest, hcut, hread⟩ := parse_of_isHttp h hhttp
  obtain ⟨host, hauthority, -, hhost, -⟩ := (readAfterSlashes_eq_ok_iff hspecial).mp hread
  exact ⟨rest, host, hcut, hhost, readAuthority_flag hspecial hauthority true⟩

/-- Slashes at the end of a text are not needed for the origin. -/
theorem opens_trimEnd (h : parse text = .ok u) (hhttp : u.isHttp = true) :
    Opens (clean (Text.trimEnd '/' text).toList) u := by
  have hspecial := isSpecial_of_isHttp hhttp
  obtain ⟨rest, host, hcut, hhost, hauthority⟩ := opens_of_parse h hhttp
  obtain ⟨r, blanks, n, hprefix, hafter, hblanks, -⟩ := cut_trimEnd hcut
  rw [hafter] at hauthority
  have htake := (inAuthority_append hspecial hblanks (takeWhile_inAuthority_slashes n) hauthority).1
  rw [htake] at hauthority
  exact ⟨r, host, hprefix, hhost, hauthority⟩

/-- What is read of a text that goes on behind its opening. -/
theorem Opens.parse_eq (h : Opens s u) (hhttp : u.isHttp = true)
    (hclean : clean text.toList = s ++ rest) : ∃ behind host,
    parse text = readAfterSlashes u.scheme (behind ++ rest) ∧ u.host = some host ∧
      readAuthority u.scheme (behind.takeWhile inAuthority) true =
        .ok (u.userinfo, host, u.port) := by
  obtain ⟨r, host, hcut, hhost, hauthority⟩ := h
  have hbehind : r.dropWhile isSlash ≠ [] := by
    intro hnil
    rw [hnil] at hauthority
    exact ne_nil_of_readAuthority (isSpecial_of_isHttp hhttp) hauthority rfl
  have hwhole := cutScheme_of_prefix hcut rest
  rw [← hclean] at hwhole
  refine ⟨r.dropWhile isSlash, host, ?_, hhost, hauthority⟩
  rw [parse_of_cutScheme (scheme_of_isHttp hhttp) hwhole, (cut_append hbehind rest).2]

/-- Blanks behind an opening, and what ends its authority, do not lead to another origin. -/
theorem Opens.sameOrigin (h : Opens s u) (hhttp : u.isHttp = true)
    (hblanks : ∀ c ∈ blanks, c.toNat ≤ 0x20) (hrest : rest.takeWhile inAuthority = [])
    (hclean : clean text.toList = s ++ (blanks ++ rest)) (hv : parse text = .ok v) :
    v.SameOrigin u := by
  have hspecial := isSpecial_of_isHttp hhttp
  obtain ⟨behind, host, hparse, hhost, hauthority⟩ := h.parse_eq hhttp hclean
  rw [hparse] at hv
  obtain ⟨host', hread, hscheme, hhost', -⟩ := (readAfterSlashes_eq_ok_iff hspecial).mp hv
  rw [(inAuthority_append hspecial hblanks hrest hread).1] at hread
  have hsame := (readAuthority_flag hspecial hread true).symm.trans hauthority
  obtain ⟨-, hname, hport⟩ : v.userinfo = u.userinfo ∧ host' = host ∧ v.port = u.port := by
    simpa using hsame
  exact ⟨hscheme, by rw [hhost', hhost, hname], hport⟩

theorem takeWhile_append_of_end {p : Char → Bool} (hrest : rest.takeWhile p = []) (s : List Char) :
    (s ++ rest).takeWhile p = s.takeWhile p := by
  by_cases hall : s.dropWhile p = []
  · rw [List.takeWhile_append_of_pos (List.dropWhile_eq_nil_iff.mp hall), hrest, List.append_nil,
      List.takeWhile_eq_self_iff.mpr (List.dropWhile_eq_nil_iff.mp hall)]
  · exact (cut_append hall rest).1

/-- Whatever ends the authority behind an opening, the text is a URL. -/
theorem Opens.exists_parse (h : Opens s u) (hhttp : u.isHttp = true)
    (hrest : rest.takeWhile inAuthority = []) (hclean : clean text.toList = s ++ rest) :
    ∃ v, parse text = .ok v ∧ v.SameOrigin u := by
  have hspecial := isSpecial_of_isHttp hhttp
  obtain ⟨behind, host, hparse, -, hauthority⟩ := h.parse_eq hhttp hclean
  have hread : ∃ v, parse text = .ok v := by
    rw [hparse, readAfterSlashes_eq hspecial, takeWhile_append_of_end hrest,
      readAuthority_flag hspecial hauthority]
    exact ⟨_, rfl⟩
  obtain ⟨v, hv⟩ := hread
  have hsame : v.SameOrigin u :=
    h.sameOrigin hhttp (fun _ hc => absurd hc List.not_mem_nil) hrest hclean hv
  exact ⟨v, hv, hsame⟩

end Opening

/-! ## URLs that are written -/

namespace IsLocated

variable {u : Url}

theorem opens (h : IsLocated u) : Opens (u.scheme ++ ':' :: u.authorityText) u := by
  obtain ⟨raw, name, host, huser, hparse, hhost⟩ := h.authority
  have hspecial := isSpecial_of_isHttp h.http
  have hread := @readAuthority_authority u.scheme name raw host u.port hspecial hparse h.port true
  obtain ⟨hslash, htake, -⟩ := @cut_written name raw host u.port hparse [] rfl
  rw [List.append_nil] at hslash htake
  refine ⟨u.authorityText, host, cutScheme_written (scheme_of_isHttp h.http) _, hhost, ?_⟩
  rw [authorityText_of_host hhost, huser, hslash, htake, hread]

/-- The text of a URL reads as a URL of the same origin. -/
theorem parse_text (h : IsLocated u) : ∃ v, parse u.text = .ok v ∧ v.SameOrigin u := by
  obtain ⟨path, hpath⟩ := List.head?_eq_some_iff.mp h.path
  obtain ⟨tail, htext, -⟩ := u.text_eq
  have hclean := clean_slash (u.scheme ++ ':' :: u.authorityText) (path ++ tail)
  rw [dropWhile_of_forall h.isDense_front.not_isOuter, h.isDense_front.filter_eq,
    ← List.cons_append, ← hpath, ← htext] at hclean
  exact h.opens.exists_parse h.http rfl hclean

/-- What goes over the wire reads as a URL of the same origin. -/
theorem parse_wireText (h : IsLocated u) : ∃ v, parse u.wireText = .ok v ∧ v.SameOrigin u := by
  obtain ⟨raw, name, host, -, hparse, hhost⟩ := h.authority
  have hbare : IsLocated { u with userinfo := [], fragment := none } :=
    ⟨h.http, ⟨[], name, host, rfl, hparse, hhost⟩, h.port, h.path⟩
  obtain ⟨v, hv, hsame⟩ := hbare.parse_text
  exact ⟨v, hv, hsame.trans ⟨rfl, rfl, rfl⟩⟩

end IsLocated

/-! ## More segments -/

section Rooted

variable {path : List Char}

theorem head?_dropLast (h : path.head? = some '/') (hlength : 1 < path.length) :
    path.dropLast.head? = some '/' := by
  rw [List.head?_dropLast, if_pos hlength, h]

theorem head?_upToSlash (h : path.head? = some '/') : (upToSlash path).head? = some '/' := by
  obtain ⟨behind, hsplit, hbehind⟩ := dropEndWhile_append (· != '/') path
  change path = upToSlash path ++ behind at hsplit
  cases hkept : upToSlash path with
  | nil =>
      rw [hkept, List.nil_append] at hsplit
      have hslash := hbehind '/' (hsplit ▸ List.mem_of_head? h)
      simp at hslash
  | cons c rest =>
      rw [hsplit, hkept] at h
      exact h

theorem head?_addSegment (h : path.head? = some '/') (segment : List Char) :
    (addSegment path segment).head? = some '/' := by
  unfold addSegment
  split
  · exact h
  · unfold leaveSegment
    apply head?_upToSlash
    split
    · exact head?_dropLast h ‹_›
    · exact h
  · rw [List.head?_append, h]
    rfl

theorem head?_pushSegment (special : Bool) (h : path.head? = some '/') (segment : List Char) :
    (pushSegment special path segment).head? = some '/' := by
  unfold pushSegment
  dsimp only
  split
  · exact h
  · apply head?_addSegment
    split
    · exact h
    · rw [List.head?_append, h]
      rfl

theorem head?_foldl_pushSegment (special : Bool) (segments : List (List Char))
    (h : path.head? = some '/') : (segments.foldl (pushSegment special) path).head? = some '/' := by
  induction segments generalizing path with
  | nil => exact h
  | cons segment segments ih => exact ih (head?_pushSegment special h segment)

theorem head?_dropEmptyEnd (h : path.head? = some '/') : (dropEmptyEnd path).head? = some '/' := by
  unfold dropEmptyEnd
  split
  · next hlong =>
    simp only [Bool.and_eq_true, decide_eq_true_eq] at hlong
    exact head?_dropLast h hlong.1
  · exact h

end Rooted

/-- Whatever the segments are, there is a URL with them, and it keeps the origin. -/
theorem IsLocated.extend {u : Url} (h : IsLocated u) (segments : List String) :
    ∃ v, u.extend? segments = some v ∧ IsLocated v ∧ v.SameOrigin u := by
  have hspecial := isSpecial_of_isHttp h.http
  unfold extend? isHierarchical
  rw [hspecial]
  refine ⟨_, rfl, ⟨h.http, h.authority, h.port, ?_⟩, ⟨rfl, rfl, rfl⟩⟩
  exact head?_foldl_pushSegment true _ (head?_dropEmptyEnd h.path)

end Url

/-! ## Calls -/

/-- A request goes to the origin of a URL. -/
def Request.GoesTo (r : Request) (u : Url) : Prop :=
  ∃ address, Url.parse r.url = .ok address ∧ address.SameOrigin u

namespace Catalog

theorem goesTo_of_sends {url : String} {body : Option Json} {r : Request} {offline : Bool}
    {base : Url} (hhttp : base.isHttp = true)
    (hurl : ∀ {address}, Url.parse url = .ok address → address.SameOrigin base)
    (h : Sends url body (.sent r offline)) : r.GoesTo base := by
  cases h with
  | @sent address _ haddress =>
      have horigin := hurl haddress
      obtain ⟨hlocated, -⟩ := Url.located_of_parse haddress (horigin.isHttp.trans hhttp)
      obtain ⟨wired, hwired, hsame⟩ := hlocated.parse_wireText
      exact ⟨wired, hwired, hsame.trans horigin⟩

/-- What is no URL is refused before anything is sent. -/
theorem sendText_of_error {c : Catalog} {url : String} {flaw : UrlFlaw}
    (h : Url.parse url = .error flaw) (body : Option Json) (w : World) :
    c.sendText url body w = (.error (.request url), w) := by
  unfold sendText send
  rw [h]
  rfl

theorem ensureOnline_bind_error {α : Type} (operation : String) {k : Unit → Act FetchError α}
    {w : World} {e : FetchError} (h : k () w = (.error e, w)) : (ensureOnline operation >>= k) w =
      (.error (if w.offline then .notConfigured operation else e), w) := by
  cases hgate : w.offline with
  | true => exact ensureOnline_bind_offline operation k hgate
  | false => exact (ensureOnline_bind_open operation k hgate).trans h

/-- What is sent to an address, which may not take the connection. -/
def outgoing (c : Catalog) (address : Url) (body : Option Json) : List Request :=
  if c.network.connects address then [requestFor address body] else []

section Requests

variable {c : Catalog} {path : String} {address : Url} {w : World}

theorem get_requests (haddress : Url.parse (c.pathUrl path) = .ok address)
    (hhttp : address.isHttp = true) (hopen : w.offline = false) :
    (c.get path w).2.requests = w.requests ++ c.outgoing address none := by
  rw [get, ensureOnline_bind_open _ _ hopen]
  exact sendText_requests haddress hhttp none w

theorem post_requests (haddress : Url.parse (c.pathUrl path) = .ok address)
    (hhttp : address.isHttp = true) (body : Json) (hopen : w.offline = false) :
    (c.post path body w).2.requests = w.requests ++ c.outgoing address (some body) := by
  rw [post, ensureOnline_bind_open _ _ hopen]
  exact sendText_requests haddress hhttp (some body) w

end Requests

section Origin

variable {text : String} {base : Url} (network : Network) (hbase : Url.parse text = .ok base)
  (hhttp : base.isHttp = true)

include hbase hhttp

/-- A path behind the address of the catalog leads to the origin of the catalog, if anywhere. -/
theorem pathUrl_sameOrigin (path : String) {address : Url}
    (haddress : Url.parse ((ofUrl text network).pathUrl path) = .ok address) :
    address.SameOrigin base := by
  have hopens := Url.opens_trimEnd hbase hhttp
  obtain ⟨blanks, hcleaned, hblanks, -⟩ := Url.clean_append_blanks (Text.trimEnd '/' text).toList
  have hclean := Url.clean_slash (Text.trimEnd '/' text).toList (Text.trimStart '/' path).toList
  -- With more behind it the address keeps the blanks at its end, which cleaning alone would drop.
  have htext : ((ofUrl text network).pathUrl path).toList =
      (Text.trimEnd '/' text).toList ++ '/' :: (Text.trimStart '/' path).toList := by
    simp [pathUrl, ofUrl]
  rw [hcleaned, List.append_assoc, ← htext] at hclean
  exact hopens.sameOrigin hhttp hblanks rfl hclean haddress

/-- The URL of any segments is there, and has the origin of the catalog. -/
theorem segmentUrl_sameOrigin (segments : List String) : ∃ url address,
    (ofUrl text network).segmentUrl segments = .ok url ∧ Url.parse url = .ok address ∧
      address.SameOrigin base := by
  have hopens := Url.opens_trimEnd hbase hhttp
  obtain ⟨trimmed, htrimmed, horigin⟩ := hopens.exists_parse hhttp rfl (List.append_nil _).symm
  obtain ⟨hlocated, -⟩ := Url.located_of_parse htrimmed (horigin.isHttp.trans hhttp)
  obtain ⟨extended, hextend, hkept, hsame⟩ := hlocated.extend segments
  obtain ⟨address, haddress, hread⟩ := hkept.parse_text
  refine ⟨extended.text, address, ?_, haddress, hread.trans (hsame.trans horigin)⟩
  unfold segmentUrl
  rw [show (ofUrl text network).baseUrl = Text.trimEnd '/' text from rfl, htrimmed]
  dsimp only
  rw [hextend]

theorem get_asks (path : String) : ((ofUrl text network).get path).Asks (·.GoesTo base) :=
  (get_tells _ path).asks fun _ _ =>
    goesTo_of_sends hhttp (pathUrl_sameOrigin network hbase hhttp path)

theorem post_asks (path : String) (body : Json) :
    ((ofUrl text network).post path body).Asks (·.GoesTo base) :=
  (post_tells _ path body).asks fun _ _ =>
    goesTo_of_sends hhttp (pathUrl_sameOrigin network hbase hhttp path)

theorem getSegments_asks (segments : List String) :
    ((ofUrl text network).getSegments segments).Asks (·.GoesTo base) := by
  obtain ⟨url, address, hurl, haddress, horigin⟩ :=
    segmentUrl_sameOrigin network hbase hhttp segments
  refine (getSegments_tells _ segments).asks fun r offline ⟨url', hurl', hsends⟩ => ?_
  obtain rfl := Except.ok.inj (hurl.symm.trans hurl')
  refine goesTo_of_sends hhttp (fun {address'} haddress' => ?_) hsends
  rwa [← Except.ok.inj (haddress.symm.trans haddress')]

end Origin

/-- Every request of a call goes to the scheme, the host and the port of the base URL,
whatever path or segments are asked for.  A path that gives no URL is refused and changes
nothing; segments always give one. -/
theorem calls_keep_origin {text : String} {base : Url} (network : Network)
    (hbase : Url.parse text = .ok base) (hhttp : base.isHttp = true) :
    let c := ofUrl text network
    (∀ path, (c.get path).Asks (·.GoesTo base) ∧ (∀ body, (c.post path body).Asks (·.GoesTo base)) ∧
      (∀ address, Url.parse (c.pathUrl path) = .ok address → address.SameOrigin base ∧
        ∀ w : World, w.offline = false →
          (c.get path w).2.requests = w.requests ++ c.outgoing address none ∧
          ∀ body, (c.post path body w).2.requests = w.requests ++ c.outgoing address (some body)) ∧
      ∀ flaw, Url.parse (c.pathUrl path) = .error flaw → ∀ w : World,
        c.get path w = (.error (if w.offline then .notConfigured s!"GET {path}"
          else .request (c.pathUrl path)), w) ∧
        ∀ body, c.post path body w = (.error (if w.offline then .notConfigured s!"POST {path}"
          else .request (c.pathUrl path)), w)) ∧
    ∀ segments, (c.getSegments segments).Asks (·.GoesTo base) ∧
      ∃ url address, c.segmentUrl segments = .ok url ∧ Url.parse url = .ok address ∧
        address.SameOrigin base ∧ ∀ w : World, w.offline = false →
          (c.getSegments segments w).2.requests = w.requests ++ c.outgoing address none := by
  intro c
  refine ⟨fun path => ⟨get_asks network hbase hhttp path, post_asks network hbase hhttp path,
      ?_, ?_⟩,
    fun segments => ⟨getSegments_asks network hbase hhttp segments, ?_⟩⟩
  · intro address haddress
    have horigin := pathUrl_sameOrigin network hbase hhttp path haddress
    have haddressHttp := horigin.isHttp.trans hhttp
    exact ⟨horigin, fun w hopen => ⟨get_requests haddress haddressHttp hopen,
      fun body => post_requests haddress haddressHttp body hopen⟩⟩
  · intro flaw hflaw w
    exact ⟨ensureOnline_bind_error _ (sendText_of_error hflaw none w),
      fun body => ensureOnline_bind_error _ (sendText_of_error hflaw (some body) w)⟩
  · obtain ⟨url, address, hurl, haddress, horigin⟩ :=
      segmentUrl_sameOrigin network hbase hhttp segments
    refine ⟨url, address, hurl, haddress, horigin, fun w hopen => ?_⟩
    rw [c.getSegments_open segments hopen, hurl]
    exact sendText_requests haddress (horigin.isHttp.trans hhttp) none w

/-- A path that looks like another host stays behind the host of the catalog, and so do segments
that climb; a blank at the end of the base URL would get into the host, and nothing is sent. -/
theorem calls_keep_origin_crafted :
    let base : Url := { scheme := "http".toList, userinfo := "u:p@".toList
                        host := some "catalog.test".toList, port := some 8080, path := "//".toList }
    let c := ofUrl "HTTP:\\\\u:p@Catalog.TEST:8080//" (Network.ofRoutes [])
    let blank := ofUrl "http://catalog.test " (Network.ofRoutes [])
    let sent := (c.get "\\\\evil.test/@x?y#z" World.bare).2.requests
    let climbing := (c.getSegments ["..", "", "\t..", "@evil.test"] World.bare).2.requests
    sent.map (·.url) = ["http://catalog.test:8080///evil.test/@x?y"] ∧
      (∀ r ∈ sent, r.GoesTo base) ∧
      climbing.map (·.url) = ["http://catalog.test:8080/@evil.test"] ∧
      (∀ r ∈ climbing, r.GoesTo base) ∧
      blank.get "@evil.test" World.bare =
        (.error (.request "http://catalog.test /@evil.test"), World.bare) := by
  intro base c blank sent climbing
  have hbase : Url.parse "HTTP:\\\\u:p@Catalog.TEST:8080//" = .ok base :=
    eq_ok_of_toOption (by decide +kernel)
  have hblank : Url.parse "http://catalog.test " =
      .ok { scheme := "http".toList, host := some "catalog.test".toList, path := "/".toList } :=
    eq_ok_of_toOption (by decide +kernel)
  obtain ⟨hpaths, hsegments⟩ := calls_keep_origin (Network.ofRoutes []) hbase rfl
  obtain ⟨new, hnew, hgoes⟩ := (hpaths "\\\\evil.test/@x?y#z").1 World.bare
  obtain ⟨more, hmore, hclimb⟩ := (hsegments ["..", "", "\t..", "@evil.test"]).1 World.bare
  obtain ⟨-, -, -, hrefused⟩ := (calls_keep_origin (Network.ofRoutes []) hblank rfl).1 "@evil.test"
  have hsent : sent = new := hnew
  have hclimbing : climbing = more := hmore
  have hnone : (Url.parse (blank.pathUrl "@evil.test")).toOption = none := by decide +kernel
  refine ⟨by decide +kernel, hsent ▸ hgoes, by decide +kernel, hclimbing ▸ hclimb, ?_⟩
  cases hurl : Url.parse (blank.pathUrl "@evil.test") with
  | ok address => simp [hurl, Except.toOption] at hnone
  | error flaw => exact (hrefused flaw hurl World.bare).1

end Catalog

end PartDepot
