import LhsServer.Correctness.Routing

/-!
# Hosts and locations of the keys

The constructor of `urlmap` takes a key apart with the pattern `https?://(.*)(/.*)`. The pattern is
not tied to the start of the key, and its first group takes as much as it can.

- `head?_hostPattern_iff`: what the groups of a match at the start of a text are;
- `SplitsKey`: a URL is split behind its host, and any other key is a location;
- `Splittable`, `remap_splits_iff`: the keys for which that is so.
-/

namespace Lhs.Middleware.Urlmap

open Bytes Http

/-- The schemes of the pattern. -/
def schemes : List Bytes := [str "http", str "https"]

/-! ## The groups of a match -/

section Groups

variable {any : UInt8 → Bool}

theorem accepts_slash_iff (s : Bytes) :
    Regex.Accepts [.closeGroup, .openGroup, .chars (· == slash) .one, .chars any .star,
      .closeGroup] s ↔ ∃ t, s = slash :: t := by
  rw [Regex.accepts_paren fun _ => Iff.rfl, Regex.accepts_paren fun _ => Iff.rfl,
    Regex.accepts_one]
  constructor
  · rintro ⟨a, t, rfl, ha, -⟩
    exact ⟨t, by rw [beq_iff_eq.mp ha]⟩
  · rintro ⟨t, rfl⟩
    refine ⟨slash, t, rfl, beq_self_eq_true slash, ?_⟩
    exact ⟨[], t, rfl, ⟨rfl, List.forall_mem_nil _⟩, [], t, rfl, rfl, trivial⟩

theorem head?_slash_iff {host s : Bytes} {gs : List Bytes} :
    (Regex.results [.closeGroup, .openGroup, .chars (· == slash) .one, .chars any .star,
      .closeGroup] (some host) s).head? = some gs ↔
      ∃ t, s = slash :: t ∧ gs = [host, slash :: t.takeWhile any] := by
  rw [Regex.head?_results_closeGroup_iff, Regex.results]
  simp only [Regex.head?_results_one_iff, Option.map_some, Regex.head?_results_lastGroup]
  constructor
  · rintro ⟨gs', ⟨a, t, rfl, ha, hlast⟩, rfl⟩
    rw [beq_iff_eq.mp ha] at hlast ⊢
    rw [← Option.some.inj hlast]
    exact ⟨t, rfl, rfl⟩
  · rintro ⟨t, rfl, rfl⟩
    exact ⟨_, ⟨slash, t, rfl, beq_self_eq_true slash, rfl⟩, rfl⟩

/-- The two groups: the host reaches up to the last `/` that it can reach. -/
theorem head?_groups_iff {s : Bytes} {gs : List Bytes} :
    (Regex.results [.openGroup, .chars any .star, .closeGroup, .openGroup,
        .chars (· == slash) .one, .chars any .star, .closeGroup] none s).head? = some gs ↔
      ∃ host t, s = host ++ slash :: t ∧ (∀ c ∈ host, any c) ∧
        (∀ w t', s = w ++ slash :: t' → (∀ c ∈ w, any c) → w.length ≤ host.length) ∧
        gs = [host, slash :: t.takeWhile any] := by
  rw [Regex.results, Regex.head?_results_chars_iff]
  simp only [Option.map_some, List.nil_append, head?_slash_iff, accepts_slash_iff]
  constructor
  · rintro ⟨host, -, rfl, ⟨-, hhost⟩, ⟨t, rfl, rfl⟩, hlonger⟩
    refine ⟨host, t, rfl, hhost, fun w t' hs hw => ?_, rfl⟩
    by_contra hlt
    exact hlonger w _ hs ⟨rfl, hw⟩ (Nat.lt_of_not_le hlt) ⟨t', rfl⟩
  · rintro ⟨host, t, rfl, hhost, hlonger, rfl⟩
    refine ⟨host, _, rfl, ⟨rfl, hhost⟩, ⟨t, rfl, rfl⟩, ?_⟩
    rintro w _ hs ⟨-, hw⟩ hlt ⟨t', rfl⟩
    exact absurd (hlonger w t' hs hw) (Nat.not_le_of_lt hlt)

/-- What is in front of the groups. -/
theorem head?_scheme_iff {ns : List (Regex.Node UInt8)} {s : Bytes} {gs : List Bytes} :
    (Regex.results (schemeNodes ++
        (.chars (· == slash) .one :: .chars (· == slash) .one :: ns)) none s).head? = some gs ↔
      ∃ scheme ∈ schemes, ∃ rest, s = scheme ++ str "://" ++ rest ∧
        (Regex.results ns none rest).head? = some gs := by
  have hcolon : ∀ a : UInt8, (a == 115) = true → ¬(a == colon) = true := by
    intro a ha
    rw [beq_iff_eq.mp ha]
    decide
  rw [schemeNodes]
  simp only [List.cons_append, List.nil_append, Regex.head?_results_one_iff,
    Regex.head?_results_opt_iff hcolon, Option.map_none, beq_iff_eq]
  constructor
  · rintro ⟨-, -, rfl, rfl, -, -, rfl, rfl, -, -, rfl, rfl, -, -, rfl, rfl, w, -, rfl, hlength, hw,
      -, -, rfl, rfl, -, -, rfl, rfl, -, rest, rfl, rfl, hhead⟩
    cases w with
    | nil => exact ⟨str "http", List.mem_cons_self, rest, rfl, hhead⟩
    | cons a w =>
      obtain rfl : w = [] := by simpa using hlength
      obtain rfl : a = 115 := hw a List.mem_cons_self
      exact ⟨str "https", by simp [schemes], rest, rfl, hhead⟩
  · rintro ⟨scheme, hscheme, rest, rfl, hhead⟩
    rcases List.mem_pair.mp hscheme with rfl | rfl
    · exact ⟨_, _, rfl, rfl, _, _, rfl, rfl, _, _, rfl, rfl, _, _, rfl, rfl, [], _, rfl, by simp,
        by simp, _, _, rfl, rfl, _, _, rfl, rfl, _, rest, rfl, rfl, hhead⟩
    · exact ⟨_, _, rfl, rfl, _, _, rfl, rfl, _, _, rfl, rfl, _, _, rfl, rfl, [115], _, rfl,
        by simp, by simp, _, _, rfl, rfl, _, _, rfl, rfl, _, rest, rfl, rfl, hhead⟩

/-- The groups of a match at the start of a text. -/
theorem head?_hostPattern_iff {s : Bytes} {gs : List Bytes} :
    (Regex.results (schemeNodes ++ hostNodes any) none s).head? = some gs ↔
      ∃ scheme ∈ schemes, ∃ host t, s = scheme ++ str "://" ++ (host ++ slash :: t) ∧
        (∀ c ∈ host, any c) ∧
        (∀ w t', host ++ slash :: t = w ++ slash :: t' → (∀ c ∈ w, any c) →
          w.length ≤ host.length) ∧
        gs = [host, slash :: t.takeWhile any] := by
  rw [hostNodes, head?_scheme_iff]
  simp only [head?_groups_iff]
  constructor
  · rintro ⟨scheme, hscheme, -, rfl, host, t, rfl, hgroups⟩
    exact ⟨scheme, hscheme, host, t, rfl, hgroups⟩
  · rintro ⟨scheme, hscheme, host, t, rfl, hgroups⟩
    exact ⟨scheme, hscheme, _, rfl, host, t, rfl, hgroups⟩

/-- Where a match can start. -/
theorem accepts_hostPattern {scheme : Bytes} (hscheme : scheme ∈ schemes) {host : Bytes}
    (hhost : ∀ c ∈ host, any c) (t : Bytes) :
    Regex.Accepts (schemeNodes ++ hostNodes any)
      (scheme ++ str "://" ++ (host ++ slash :: t)) := by
  have hgroups : Regex.Accepts (.openGroup :: .chars any .star :: [.closeGroup, .openGroup,
      .chars (· == slash) .one, .chars any .star, .closeGroup]) (host ++ slash :: t) :=
    ⟨[], _, rfl, rfl, host, _, rfl, ⟨rfl, hhost⟩, (accepts_slash_iff _).mpr ⟨t, rfl⟩⟩
  have hslashes : Regex.Accepts (.chars (· == colon) .one :: hostNodes any)
      (str "://" ++ (host ++ slash :: t)) :=
    Regex.accepts_one.mpr ⟨_, _, rfl, rfl, Regex.accepts_one.mpr ⟨_, _, rfl, rfl,
      Regex.accepts_one.mpr ⟨_, _, rfl, rfl, hgroups⟩⟩⟩
  rcases List.mem_pair.mp hscheme with rfl | rfl
  · refine Regex.accepts_one.mpr ⟨_, _, rfl, rfl, Regex.accepts_one.mpr ⟨_, _, rfl, rfl,
      Regex.accepts_one.mpr ⟨_, _, rfl, rfl, Regex.accepts_one.mpr ⟨_, _, rfl, rfl, ?_⟩⟩⟩⟩
    exact ⟨[], _, rfl, ⟨rfl, by simp⟩, hslashes⟩
  · refine Regex.accepts_one.mpr ⟨_, _, rfl, rfl, Regex.accepts_one.mpr ⟨_, _, rfl, rfl,
      Regex.accepts_one.mpr ⟨_, _, rfl, rfl, Regex.accepts_one.mpr ⟨_, _, rfl, rfl, ?_⟩⟩⟩⟩
    exact ⟨[115], _, rfl, ⟨rfl, by simp⟩, hslashes⟩

end Groups

/-! ## Keys -/

section Keys

variable {App : Type}

/-- The mapping of a URL has its host, and what follows the host as its location; the mapping of any
other key has no host, and the key as its location. -/
structure SplitsKey (key : Bytes) (m : Mapping App) : Prop where
  url : ∀ scheme ∈ schemes, ∀ host t, host ≠ [] → slash ∉ host →
    key = scheme ++ str "://" ++ (host ++ slash :: t) → m.host = host ∧ m.location = slash :: t
  location : (∀ scheme ∈ schemes, ¬scheme ++ str "://" <+: key) → m.host = [] ∧ m.location = key

/-- A URL stands somewhere in the key: a scheme, characters that `.` matches, and a `/`. -/
def ContainsUrl (any : UInt8 → Bool) (key : Bytes) : Prop :=
  ∃ front, ∃ scheme ∈ schemes, ∃ host t,
    key = front ++ (scheme ++ str "://" ++ (host ++ slash :: t)) ∧ ∀ c ∈ host, any c

/-- There is one segment behind the host of a URL, and no character that `.` does not match; and in
any other key there is no URL. -/
structure Splittable (any : UInt8 → Bool) (key : Bytes) : Prop where
  url : ∀ scheme ∈ schemes, ∀ host t, host ≠ [] → slash ∉ host →
    key = scheme ++ str "://" ++ (host ++ slash :: t) → slash ∉ t ∧ ∀ c ∈ host ++ t, any c
  location : (∀ scheme ∈ schemes, ¬scheme ++ str "://" <+: key) → ¬ContainsUrl any key

variable {mgz : Mgz} {any : UInt8 → Bool} (hfind : mgz.FindsGroups any)

/-- The match that a search finds somewhere in a key. -/
theorem exists_of_search {key : Bytes} {gs : List Bytes}
    (h : ({ anchored := false, nodes := schemeNodes ++ hostNodes any } : Regex UInt8).search key =
      some gs) :
    ∃ front, ∃ scheme ∈ schemes, ∃ host t,
      key = front ++ (scheme ++ str "://" ++ (host ++ slash :: t)) ∧ (∀ c ∈ host, any c) ∧
        (∀ w t', host ++ slash :: t = w ++ slash :: t' → (∀ c ∈ w, any c) →
          w.length ≤ host.length) ∧
        gs = [host, slash :: t.takeWhile any] := by
  obtain ⟨s, ⟨front, rfl⟩, hhead⟩ := Regex.exists_suffix_of_search h
  obtain ⟨scheme, hscheme, host, t, rfl, hgroups⟩ := head?_hostPattern_iff.mp hhead
  exact ⟨front, scheme, hscheme, host, t, rfl, hgroups⟩

theorem search_isSome_iff {key : Bytes} :
    (({ anchored := false, nodes := schemeNodes ++ hostNodes any } : Regex UInt8).search
      key).isSome ↔ ContainsUrl any key := by
  constructor
  · intro h
    obtain ⟨gs, hgs⟩ := Option.isSome_iff_exists.mp h
    obtain ⟨front, scheme, hscheme, host, t, hkey, hhost, -, -⟩ := exists_of_search hgs
    exact ⟨front, scheme, hscheme, host, t, hkey, hhost⟩
  · rintro ⟨front, scheme, hscheme, host, t, rfl, hhost⟩
    rw [Regex.search_isSome_iff, Regex.Occurs, if_neg Bool.false_ne_true]
    exact ⟨_, List.suffix_append _ _, accepts_hostPattern hscheme hhost t⟩

include hfind in
theorem find_hostPattern (key : Bytes) :
    mgz.find (str "https?://(.*)(/.*)") key =
      ({ anchored := false, nodes := schemeNodes ++ hostNodes any } : Regex UInt8).search key :=
  hfind _ _ parse_hostPattern key

include hfind in
/-- The mapping of a key in which a URL is found. -/
theorem mappingOf_of_search {key : Bytes} {host location : Bytes}
    (h : ({ anchored := false, nodes := schemeNodes ++ hostNodes any } : Regex UInt8).search key =
      some [host, location]) (app : Option App) :
    (mappingOf mgz key app).host = host ∧ (mappingOf mgz key app).location = location := by
  rw [mappingOf, find_hostPattern hfind, h]
  exact ⟨rfl, rfl⟩

include hfind in
/-- The mapping of a key in which no URL is found. -/
theorem mappingOf_of_not_containsUrl {key : Bytes} (h : ¬ContainsUrl any key) (app : Option App) :
    (mappingOf mgz key app).host = [] ∧ (mappingOf mgz key app).location = key := by
  rw [← search_isSome_iff, Option.not_isSome_iff_eq_none] at h
  rw [mappingOf, find_hostPattern hfind, h]
  exact ⟨rfl, rfl⟩

/-- A scheme in front of the same text, or of a longer one, is the scheme of the whole. -/
theorem scheme_unique {front scheme scheme' rest extra : Bytes} (hscheme : scheme ∈ schemes)
    (hscheme' : scheme' ∈ schemes)
    (h : front ++ (scheme' ++ str "://" ++ (rest ++ extra)) = scheme ++ str "://" ++ rest) :
    front = [] ∧ extra = [] := by
  have hlength := congrArg List.length h
  simp only [List.length_append] at hlength
  have hhttp : (str "http").length = 4 := rfl
  have hhttps : (str "https").length = 5 := rfl
  rw [← List.length_eq_zero_iff, ← List.length_eq_zero_iff]
  rcases List.mem_pair.mp hscheme with rfl | rfl <;>
    rcases List.mem_pair.mp hscheme' with rfl | rfl
  · omega
  · omega
  -- `http` for `https` leaves one more character, which is neither in front nor behind
  · exfalso
    cases front with
    | nil => simp [str] at h
    | cons c front =>
      obtain rfl : front = [] := List.length_eq_zero_iff.mp (by simp at hlength; omega)
      simp [str] at h
  · omega

include hfind in
/-- Where a URL is split behind its host, there is one segment behind it and `.` matches all its
characters. -/
theorem segment_of_mappingOf_url {scheme : Bytes} (hscheme : scheme ∈ schemes) {host : Bytes}
    (hne : host ≠ []) {t : Bytes} {app : Option App}
    (hhost : (mappingOf mgz (scheme ++ str "://" ++ (host ++ slash :: t)) app).host = host)
    (hlocation :
      (mappingOf mgz (scheme ++ str "://" ++ (host ++ slash :: t)) app).location = slash :: t) :
    slash ∉ t ∧ ∀ c ∈ host ++ t, any c := by
  by_cases hurl : ContainsUrl any (scheme ++ str "://" ++ (host ++ slash :: t))
  · obtain ⟨gs, hgs⟩ := Option.isSome_iff_exists.mp (search_isSome_iff.mpr hurl)
    obtain ⟨front, scheme', hscheme', w, t', hkey, hw, hlongest, rfl⟩ := exists_of_search hgs
    obtain ⟨hhost', hlocation'⟩ := mappingOf_of_search hfind hgs app
    obtain rfl : w = host := hhost'.symm.trans hhost
    have htake : t'.takeWhile any = t := (List.cons.inj (hlocation'.symm.trans hlocation)).2
    -- the match starts at the start of the key, so that nothing is cut off behind
    obtain ⟨extra, rfl⟩ : t <+: t' := htake ▸ List.takeWhile_prefix any
    have hrest : w ++ slash :: (t ++ extra) = (w ++ slash :: t) ++ extra := by simp
    rw [hrest] at hkey
    obtain ⟨-, rfl⟩ := scheme_unique hscheme hscheme' hkey.symm
    rw [List.append_nil] at htake hlongest
    have hany : ∀ c ∈ t, any c := fun c hc => List.mem_takeWhile_imp (htake.symm ▸ hc)
    refine ⟨fun hmem => ?_, List.forall_mem_append.mpr ⟨hw, hany⟩⟩
    -- with one more `/` a longer host would do
    obtain ⟨u, v, rfl, -⟩ := List.eq_append_cons_of_mem hmem
    have hlonger : ∀ c ∈ w ++ slash :: u, any c :=
      List.forall_mem_append.mpr ⟨hw, List.forall_mem_cons.mpr
        ⟨hany slash hmem, fun c hc => hany c (List.mem_append_left _ hc)⟩⟩
    have hle := hlongest (w ++ slash :: u) v (by simp) hlonger
    rw [List.length_append, List.length_cons] at hle
    omega
  · exact absurd ((mappingOf_of_not_containsUrl hfind hurl app).1.symm.trans hhost) (Ne.symm hne)

include hfind in
/-- A URL with one segment behind its host is split there, if `.` matches all its characters. -/
theorem mappingOf_url_of_segment {scheme : Bytes} (hscheme : scheme ∈ schemes) {host t : Bytes}
    (hsegment : slash ∉ t) (hany : ∀ c ∈ host ++ t, any c) (app : Option App) :
    (mappingOf mgz (scheme ++ str "://" ++ (host ++ slash :: t)) app).host = host ∧
      (mappingOf mgz (scheme ++ str "://" ++ (host ++ slash :: t)) app).location = slash :: t := by
  obtain ⟨hhost, ht⟩ := List.forall_mem_append.mp hany
  have htake : t.takeWhile any = t := List.takeWhile_eq_self_iff.mpr ht
  apply mappingOf_of_search hfind
  apply Regex.search_eq_some_of_head?
  refine head?_hostPattern_iff.mpr ⟨scheme, hscheme, host, t, rfl, hhost, ?_, by rw [htake]⟩
  intro w t' hsplit _
  by_contra hlt
  -- behind a longer host there would be one more `/`
  rcases List.append_eq_append_iff.mp hsplit with ⟨u, rfl, hu⟩ | ⟨u, rfl, -⟩
  · cases u with
    | nil => simp at hlt
    | cons a u =>
      have hmem : slash ∈ t := by
        rw [(List.cons.inj hu).2]
        simp
      exact hsegment hmem
  · simp at hlt

include hfind in
/-- A URL is split behind its host exactly when there is one segment behind it and `.` matches all
its characters. -/
theorem mappingOf_url_iff {scheme : Bytes} (hscheme : scheme ∈ schemes) {host : Bytes}
    (hne : host ≠ []) (t : Bytes) (app : Option App) :
    (mappingOf mgz (scheme ++ str "://" ++ (host ++ slash :: t)) app).host = host ∧
        (mappingOf mgz (scheme ++ str "://" ++ (host ++ slash :: t)) app).location = slash :: t ↔
      slash ∉ t ∧ ∀ c ∈ host ++ t, any c := by
  constructor
  · rintro ⟨hhost, hlocation⟩
    exact segment_of_mappingOf_url hfind hscheme hne hhost hlocation
  · rintro ⟨hsegment, hany⟩
    exact mappingOf_url_of_segment hfind hscheme hsegment hany app

include hfind in
/-- A key is its own location exactly when no URL stands in it. -/
theorem mappingOf_location_iff (key : Bytes) (app : Option App) :
    (mappingOf mgz key app).host = [] ∧ (mappingOf mgz key app).location = key ↔
      ¬ContainsUrl any key := by
  refine ⟨fun ⟨_, hlocation⟩ hurl => ?_, fun h => mappingOf_of_not_containsUrl hfind h app⟩
  obtain ⟨gs, hgs⟩ := Option.isSome_iff_exists.mp (search_isSome_iff.mpr hurl)
  obtain ⟨front, scheme, -, host, t, hkey, -, -, rfl⟩ := exists_of_search hgs
  -- the location that is found is shorter than the key
  have hlength := congrArg List.length (mappingOf_of_search hfind hgs app).2
  have htake := (List.takeWhile_prefix (l := t) any).length_le
  rw [hlocation, hkey] at hlength
  have hseparator : (str "://").length = 3 := rfl
  simp only [List.length_append, List.length_cons] at hlength
  omega

include hfind in
theorem splitsKey_iff (key : Bytes) (app : Option App) :
    SplitsKey key (mappingOf mgz key app) ↔ Splittable any key := by
  constructor
  · rintro ⟨hurl, hlocation⟩
    refine ⟨?_, fun h => (mappingOf_location_iff hfind key app).mp (hlocation h)⟩
    rintro scheme hscheme host t hne hslash rfl
    exact (mappingOf_url_iff hfind hscheme hne t app).mp
      (hurl scheme hscheme host t hne hslash rfl)
  · rintro ⟨hurl, hlocation⟩
    refine ⟨?_, fun h => (mappingOf_location_iff hfind key app).mpr (hlocation h)⟩
    rintro scheme hscheme host t hne hslash rfl
    exact (mappingOf_url_iff hfind hscheme hne t app).mpr
      (hurl scheme hscheme host t hne hslash rfl)

include hfind in
/-- The table has one mapping for each key. A key is split as it should be exactly when it is a URL
with one segment behind the host and without a character that `.` does not match, or no URL and
without one in it. -/
theorem remap_splits_iff {sort : List (Mapping App) → List (Mapping App)}
    (hsort : SortsMappings sort) (maps : List (Bytes × Option App)) :
    (remap mgz sort maps).Perm (mappings mgz maps) ∧
      ∀ it ∈ maps, SplitsKey it.1 (mappingOf mgz it.1 it.2) ↔ Splittable any it.1 := by
  refine ⟨?_, fun it _ => splitsKey_iff hfind it.1 it.2⟩
  rw [remap_eq_build]
  exact SortedTable.build_perm (fun l => (hsort l).1) _

end Keys

/-- A URL with one segment behind its host. -/
theorem splittable_sample : Splittable (· != LF) (str "http://h/a") where
  url scheme hscheme host t hne hslash hkey := by
    rcases List.mem_pair.mp hscheme with rfl | rfl
    · have hrest : [104, 47, 97] = host ++ slash :: t := by simpa [str] using hkey
      -- a host without `/` ends in front of the first one
      cases host with
      | nil => exact absurd rfl hne
      | cons c host =>
        rw [List.cons_append, List.cons.injEq] at hrest
        obtain ⟨rfl, hrest⟩ := hrest
        cases host with
        | nil =>
          rw [List.nil_append, List.cons.injEq] at hrest
          obtain ⟨-, rfl⟩ := hrest
          exact ⟨by decide, by simp [LF]⟩
        | cons d host =>
          rw [List.cons_append, List.cons.injEq] at hrest
          exact absurd (List.mem_cons_of_mem _ (hrest.1 ▸ List.mem_cons_self)) hslash
    · simp [str] at hkey
  location h := absurd (by decide) (h (str "http") List.mem_cons_self)

/-- It is split behind the host. -/
theorem remap_splits_sample :
    (remap Mgz.regex stableSort [(str "http://h/a", some 1), (str "/b", some 2)]).Perm
        (mappings Mgz.regex [(str "http://h/a", some 1), (str "/b", some 2)]) ∧
      SplitsKey (str "http://h/a") (mappingOf Mgz.regex (str "http://h/a") (some 1)) := by
  obtain ⟨hperm, hsplits⟩ := remap_splits_iff Mgz.regex_findsGroups stableSort_sorts
    [(str "http://h/a", some 1), (str "/b", some 2)]
  exact ⟨hperm, (hsplits _ List.mem_cons_self).mpr splittable_sample⟩

/-- The host of a URL with two segments swallows the first of them. -/
theorem remap_splits_fails :
    (mappingOf Mgz.regex (str "http://h/a/b") (some 1)).host = str "h/a" ∧
      (mappingOf Mgz.regex (str "http://h/a/b") (some 1)).location = str "/b" ∧
      ¬SplitsKey (str "http://h/a/b") (mappingOf Mgz.regex (str "http://h/a/b") (some 1)) := by
  have hhost : (mappingOf Mgz.regex (str "http://h/a/b") (some 1)).host = str "h/a" := by decide
  refine ⟨hhost, by decide, fun h => ?_⟩
  have hurl := h.url (str "http") List.mem_cons_self (str "h") (str "a/b") (by decide) (by decide)
    (by decide)
  rw [hhost] at hurl
  exact absurd hurl.1 (by decide)

end Lhs.Middleware.Urlmap
