import PartDepot.Proofs.Delivering
import PartDepot.Proofs.UrlTexts

/-!
# Requests for segments

Segments are sent behind the path of the base as they are: each of them is one segment of the path,
and what a server decodes it to is the segment again.  Neither the text of the URL nor reading the
text again for sending loses anything, so different segments never lead to the same request.
-/

namespace PartDepot

/-! ## URLs with more segments -/

namespace Url

instance (s : String) : Decidable (IsSegment s) :=
  decidable_of_iff (s ≠ "" ∧ s ≠ "." ∧ s ≠ ".." ∧ s.toList.all (!isTabOrBreak ·) = true)
    ⟨fun ⟨hnonempty, hdot, hdots, hkept⟩ => ⟨hnonempty, hdot, hdots, by simpa using hkept⟩,
      fun h => ⟨h.nonempty, h.dot, h.dots, by simpa using h.kept⟩⟩

/-- One segment of a path that stands for a text. -/
structure StandsFor (code : List Char) (s : String) : Prop where
  nonempty : code ≠ []
  whole : '/' ∉ code
  decoded : Percent.decodeText code = some s

theorem standsFor_code {s : String} (h : IsSegment s) : StandsFor (code s) s :=
  ⟨code_ne_nil h, (isPlain_code h).slash, decodeText_code s⟩

theorem forall₂_code {segments : List String} (h : ∀ s ∈ segments, IsSegment s) :
    List.Forall₂ StandsFor (segments.map code) segments := by
  rw [List.forall₂_map_left_iff, List.forall₂_same]
  exact fun s hs => standsFor_code (h s hs)

namespace IsWeb

variable {u : Url}

theorem below (h : IsWeb u) {segments : List String} (hsegments : ∀ s ∈ segments, IsSegment s) :
    IsWeb (u.below segments) :=
  ⟨h.http, h.authority, h.port, isPath_below h.path hsegments, h.query, h.fragment⟩

/-- What goes over the wire reads as the URL without name and password. -/
theorem parse_wireText (h : IsWeb u) : parse u.wireText = .ok { u with userinfo := [] } := by
  obtain ⟨raw, name, host, -, hparse, hhost⟩ := h.authority
  have hbare : IsWeb { u with userinfo := [] } :=
    ⟨h.http, ⟨[], name, host, rfl, hparse, hhost⟩, h.port, h.path, h.query, h.fragment⟩
  have hwire : u.wireText = text { u with userinfo := [] } := by
    unfold wireText
    rw [h.fragment]
  rw [hwire, hbare.parse_text]

section Different

variable {segments segments' : List String}

theorem text_below_injective (h : IsWeb u) (hsegments : ∀ s ∈ segments, IsSegment s)
    (hsegments' : ∀ s ∈ segments', IsSegment s)
    (htext : (u.below segments).text = (u.below segments').text) : segments = segments' := by
  have hread := (h.below hsegments).parse_text
  rw [htext, (h.below hsegments').parse_text] at hread
  exact below_injective h.path hsegments hsegments' (congrArg Url.path (Except.ok.inj hread)).symm

theorem wireText_below_injective (h : IsWeb u) (hsegments : ∀ s ∈ segments, IsSegment s)
    (hsegments' : ∀ s ∈ segments', IsSegment s)
    (hwire : (u.below segments).wireText = (u.below segments').wireText) :
    segments = segments' := by
  have hread := (h.below hsegments).parse_wireText
  rw [hwire, (h.below hsegments').parse_wireText] at hread
  exact below_injective h.path hsegments hsegments' (congrArg Url.path (Except.ok.inj hread)).symm

end Different

end IsWeb

end Url

/-! ## Requests -/

namespace Catalog

variable {c : Catalog} {base : Url} {segments : List String}

theorem segmentUrl_of_isWeb (hbase : Url.parse c.baseUrl = .ok base) (hweb : base.IsWeb)
    (hsegments : ∀ s ∈ segments, Url.IsSegment s) :
    c.segmentUrl segments = .ok (base.below segments).text := by
  unfold segmentUrl
  rw [hbase]
  dsimp only
  rw [Url.extend?_eq_below (Url.isSpecial_of_isHttp hweb.http) hweb.path hsegments]

/-- A request is sent if the address takes the connection, whatever comes back. -/
theorem send_requests {url : String} {address : Url} (haddress : Url.parse url = .ok address)
    (hhttp : address.isHttp = true) (body : Option Json) (w : World) :
    (c.send url body w).2.requests =
      w.requests ++ if c.network.connects address then [requestFor address body] else [] := by
  have hsent : (w.record (.sent (requestFor address body) w.offline)).requests =
      w.requests ++ [requestFor address body] := by
    simp [World.requests, World.record]
  unfold send
  rw [haddress]
  dsimp only
  rw [hhttp, Bool.true_and]
  by_cases hconnects : c.network.connects address = true
  · rw [if_pos hconnects, if_pos hconnects, ← hsent, Act.bind_apply]
    dsimp only [exchange]
    cases c.network.reply w.requests.length (requestFor address body) with
    | broken => rfl
    | answer status bytes =>
        dsimp only
        split <;> rfl
  · rw [if_neg hconnects, if_neg hconnects, List.append_nil]
    rfl

theorem sendText_requests {url : String} {address : Url} (haddress : Url.parse url = .ok address)
    (hhttp : address.isHttp = true) (body : Option Json) (w : World) :
    (c.sendText url body w).2.requests =
      w.requests ++ if c.network.connects address then [requestFor address body] else [] := by
  rw [← send_requests haddress hhttp]
  unfold sendText
  rw [Act.bind_apply]
  rcases c.send url body w with ⟨_ | ⟨status, bytes⟩, w'⟩ <;> rfl

theorem getSegments_requests (hbase : Url.parse c.baseUrl = .ok base) (hweb : base.IsWeb)
    (hsegments : ∀ s ∈ segments, Url.IsSegment s) {w : World} (hopen : w.offline = false) :
    (c.getSegments segments w).2.requests = w.requests ++
      if c.network.connects (base.below segments) then [requestFor (base.below segments) none]
      else [] := by
  have hbelow := hweb.below hsegments
  rw [c.getSegments_open segments hopen, segmentUrl_of_isWeb hbase hweb hsegments]
  exact sendText_requests hbelow.parse_text hbelow.http none w

/-- Segments behind a base URL of the web without query and fragment, with any slashes at its end.
The base is the text read without these slashes; it differs from the whole text in its path only,
and but for slashes at the end not even there, unless the slashes that were cut off had a blank
before them. Each text is sent as one segment behind the stem of the base, and different texts lead
to different URLs: as text, read again, and on the wire. -/
theorem getSegments_below {text : String} {whole : Url} (network : Network)
    (hwhole : Url.parse text = .ok whole) (hhttp : whole.isHttp = true)
    (hquery : whole.query = none) (hfragment : whole.fragment = none) :
    ∃ base, Url.parse (Text.trimEnd '/' text) = .ok base ∧ base = { whole with path := base.path } ∧
      (Text.trimEnd '/' text = text ∨ Url.EndsPlain (Text.trimEnd '/' text).toList →
        ∃ n, base.stem = Text.dropEndWhile (· == '/') whole.path ++ List.replicate n '/' ∧
          (¬['/', '/'] <:+ base.path → n = 0)) ∧
      (∀ segments, (∀ s ∈ segments, Url.IsSegment s) →
        (ofUrl text network).segmentUrl segments = .ok (base.below segments).text ∧
        Url.parse (base.below segments).text = .ok (base.below segments) ∧
        Url.parse (base.below segments).wireText = .ok { base.below segments with userinfo := [] } ∧
        (∃ codes, List.Forall₂ Url.StandsFor codes segments ∧
          base.below segments =
            { whole with path := Url.orSlash (base.stem ++ Url.joined codes) }) ∧
        ∀ w : World, w.offline = false →
          ((ofUrl text network).getSegments segments w).2.requests = w.requests ++
            if network.connects (base.below segments) then [requestFor (base.below segments) none]
            else []) ∧
      ∀ segments segments', (∀ s ∈ segments, Url.IsSegment s) → (∀ s ∈ segments', Url.IsSegment s) →
        segments ≠ segments' →
          (base.below segments).text ≠ (base.below segments').text ∧
          base.below segments ≠ base.below segments' ∧
          (base.below segments).wireText ≠ (base.below segments').wireText := by
  obtain ⟨path, hbase, hstem⟩ := Url.parse_trimEnd hwhole hhttp hquery hfragment
  have hweb := Url.isWeb_of_parse hbase hhttp hquery hfragment
  refine ⟨_, hbase, rfl, fun hend => ?_, fun segments hsegments => ⟨?_, ?_, ?_, ?_, ?_⟩,
    fun segments segments' hsegments hsegments' hne => ⟨?_, ?_, ?_⟩⟩
  · have hsame : Text.dropEndWhile (· == '/') path = Text.dropEndWhile (· == '/') whole.path := by
      rcases hend with hnone | hend
      · rw [hnone, hwhole] at hbase
        rw [congrArg Url.path (Except.ok.inj hbase)]
      · exact hstem hend
    rw [← hsame]
    exact Url.stem_eq hweb.path
  · exact segmentUrl_of_isWeb (c := ofUrl text network) hbase hweb hsegments
  · exact (hweb.below hsegments).parse_text
  · exact (hweb.below hsegments).parse_wireText
  · exact ⟨segments.map Url.code, Url.forall₂_code hsegments, rfl⟩
  · exact fun w hopen => getSegments_requests (c := ofUrl text network) hbase hweb hsegments hopen
  · exact fun heq => hne (hweb.text_below_injective hsegments hsegments' heq)
  · exact fun heq =>
      hne (Url.below_injective hweb.path hsegments hsegments' (congrArg Url.path heq))
  · exact fun heq => hne (hweb.wireText_below_injective hsegments hsegments' heq)

/-- A slash in a segment and an escape in another go over the wire as parts of their segments. -/
theorem getSegments_below_api :
    let segments := ["a/b", "%2e%2e"]
    let c := ofUrl "http://catalog.test/api//" (Network.ofRoutes [])
    (c.getSegments segments World.bare).2.requests.map (·.url) =
        ["http://catalog.test/api/a%2Fb/%252e%252e"] ∧
      c.segmentUrl segments ≠ c.segmentUrl ["a", "b", "%2e%2e"] := by
  intro segments c
  have hwhole : Url.parse "http://catalog.test/api//" =
      .ok { scheme := "http".toList, host := some "catalog.test".toList,
            path := "/api//".toList } :=
    eq_ok_of_toOption (by decide +kernel)
  have hread : Url.parse (Text.trimEnd '/' "http://catalog.test/api//") =
      .ok { scheme := "http".toList, host := some "catalog.test".toList, path := "/api".toList } :=
    eq_ok_of_toOption (by decide +kernel)
  have hsegments : ∀ s ∈ segments, Url.IsSegment s := by decide
  have hsplit : ∀ s ∈ ["a", "b", "%2e%2e"], Url.IsSegment s := by decide
  obtain ⟨base, hbase, -, -, hsent, hdifferent⟩ :=
    getSegments_below (Network.ofRoutes []) hwhole rfl rfl rfl
  obtain rfl := Except.ok.inj (hbase.symm.trans hread)
  obtain ⟨hurl, -, -, -, hrequests⟩ := hsent segments hsegments
  obtain ⟨hsplitUrl, -⟩ := hsent _ hsplit
  constructor
  · rw [hrequests World.bare rfl]
    decide +kernel
  · rw [hurl, hsplitUrl]
    exact fun heq => (hdifferent _ _ hsegments hsplit (by decide)).1 (Except.ok.inj heq)

/-- The path of a URL is the path of another one without the slashes at its end, and one
segment behind it for every text. -/
def SentBehind (whole url : Url) (segments : List String) : Prop :=
  ∃ codes, url.path = Text.dropEndWhile (· == '/') whole.path ++ Url.joined codes ∧
    List.Forall₂ Url.StandsFor codes segments

/-- A request for segments goes to a URL that has another path. -/
def Strays (text : String) (segments : List String) : Prop :=
  ∃ whole url, Url.parse text = .ok whole ∧ whole.isHttp = true ∧ whole.query = none ∧
    whole.fragment = none ∧ (∀ s ∈ segments, Url.IsSegment s) ∧
    ((ofUrl text (Network.ofRoutes [])).getSegments segments World.bare).2.requests =
      [requestFor url none] ∧
    Url.parse url.wireText = .ok url ∧ ¬SentBehind whole url segments

/-- An empty segment in front of a dot segment is no slash at the end of the text, and stays.  A
blank that is at the end when the slashes are gone does not stay. -/
theorem getSegments_strays :
    Strays "http://catalog.test/a//." ["x"] ∧ Strays "http://catalog.test/a /" ["x"] := by
  constructor
  · refine ⟨{ scheme := "http".toList, host := some "catalog.test".toList, path := "/a//".toList },
      { scheme := "http".toList, host := some "catalog.test".toList, path := "/a//x".toList },
      eq_ok_of_toOption (by decide +kernel), rfl, rfl, rfl, by decide, by decide +kernel,
      eq_ok_of_toOption (by decide +kernel), ?_⟩
    rintro ⟨codes, hpath, hcodes⟩
    have hfront : Text.dropEndWhile (· == '/') "/a//".toList = ['/', 'a'] := by decide
    obtain ⟨code, rest, hcode, hrest, rfl⟩ := List.forall₂_cons_right_iff.mp hcodes
    obtain rfl := List.forall₂_nil_right_iff.mp hrest
    rw [hfront] at hpath
    obtain rfl : ['/', 'x'] = code := by simpa using hpath
    exact hcode.whole (by decide)
  · refine ⟨{ scheme := "http".toList, host := some "catalog.test".toList,
              path := "/a%20/".toList },
      { scheme := "http".toList, host := some "catalog.test".toList, path := "/a/x".toList },
      eq_ok_of_toOption (by decide +kernel), rfl, rfl, rfl, by decide, by decide +kernel,
      eq_ok_of_toOption (by decide +kernel), ?_⟩
    rintro ⟨codes, hpath, -⟩
    have hfront : Text.dropEndWhile (· == '/') "/a%20/".toList = ['/', 'a', '%', '2', '0'] := by
      decide
    rw [hfront] at hpath
    simp at hpath

end Catalog

end PartDepot
