import LhsServer.Correctness.Routing

/-!
# Routing by host

A key of the argument of `urlmap` can name a host, as `http://host/path` or `https://host/path`.
`remap` stores the host in the mapping; `find_app` only looks at the location.

- `HostAware`: an app that is returned is registered for the host of the request or for none, and
  where hosts share a path, it is registered for the host of the request and for a path as long;
- `hostAware_iff`: `find_app` does so exactly when the entries of other hosts that match the uri are
  outdone by longer ones;
- `not_hostAware_of_shared_path`: which is the case for at most one of two hosts that share a path.
-/

namespace Lhs.Middleware.Urlmap

open Bytes Http

variable {App : Type} (mgz : Mgz)

/-- The key names a host and a path. -/
def HasUrl (key host path : Bytes) : Prop :=
  (key = str "http://" ++ host ++ path ∨ key = str "https://" ++ host ++ path) ∧
    host ≠ [] ∧ slash ∉ host ∧ path.head? = some slash

instance (key host path : Bytes) : Decidable (HasUrl key host path) :=
  inferInstanceAs (Decidable (_ ∧ _))

/-- The request is for this host. -/
def IsFor (req : Request) (host : Bytes) : Prop :=
  req.header.get? (str "Host") = some (.string host)

instance (req : Request) (host : Bytes) : Decidable (IsFor req host) :=
  inferInstanceAs (Decidable (_ = _))

/-- The key names a host that the request is not for. -/
def Foreign (req : Request) (key : Bytes) : Prop :=
  ∃ host path, HasUrl key host path ∧ ¬IsFor req host

/-- The path is registered under the host of the request and under another one, and the uri matches
it: the pattern of the path is found in the uri. -/
structure Contested (maps : List (Bytes × Option App)) (req : Request) (host path : Bytes) :
    Prop where
  isFor : IsFor req host
  own : ∃ it ∈ maps, HasUrl it.1 host path
  other : ∃ it ∈ maps, ∃ host', host' ≠ host ∧ HasUrl it.1 host' path
  found : (mgz.find (patternOf mgz path) req.uri).isSome

/-- The app is registered under the host for a path that the uri matches and that is at least as
long as this one: mounts of one host may lie within each other. -/
def Registered (maps : List (Bytes × Option App)) (req : Request) (host path : Bytes)
    (app : Option App) : Prop :=
  ∃ it ∈ maps, ∃ path', HasUrl it.1 host path' ∧ (mgz.find (patternOf mgz path') req.uri).isSome ∧
    path.length ≤ path'.length ∧ it.2 = app

/-- A result that follows the host of the request. -/
structure HostAware (maps : List (Bytes × Option App)) (req : Request) (result : Option App) :
    Prop where
  /-- An app that is returned belongs to an entry of the request's host, or of none. -/
  respects : ∀ app, result = some app →
    ∃ it ∈ maps, Found mgz req it ∧ ¬Foreign req it.1 ∧ it.2 = some app
  /-- Where a path is registered under several hosts, the app of the request's host is returned. -/
  chooses : ∀ host path, Contested mgz maps req host path →
    Registered mgz maps req host path result

/-- An entry with a longer location than this one is found. -/
def Outdone (maps : List (Bytes × Option App)) (req : Request) (it : Bytes × Option App) : Prop :=
  ∃ it' ∈ maps, Found mgz req it' ∧
    (mappingOf mgz it.1 it.2).location.length < (mappingOf mgz it'.1 it'.2).location.length

variable {mgz}

/-- The entries with the longest location are the ones that are not outdone. -/
theorem longestFound_iff_not_outdone {maps : List (Bytes × Option App)} {req : Request}
    {it : Bytes × Option App} :
    LongestFound mgz maps req it ↔ it ∈ maps ∧ Found mgz req it ∧ ¬Outdone mgz maps req it := by
  constructor
  · rintro ⟨hmem, hfound, hle⟩
    refine ⟨hmem, hfound, ?_⟩
    rintro ⟨it', hit', hfound', hlt⟩
    exact Nat.not_le_of_lt hlt (hle it' hit' hfound')
  · rintro ⟨hmem, hfound, houtdone⟩
    refine ⟨hmem, hfound, fun it' hit' hfound' => ?_⟩
    by_contra hlt
    exact houtdone ⟨it', hit', hfound', Nat.lt_of_not_le hlt⟩

/-- What holds of the result of `find_app` however the table is sorted. -/
theorem forall_findApp_iff {maps : List (Bytes × Option App)} {req : Request}
    {P : Option App → Prop} :
    (∀ sort, SortsMappings sort → P (findApp mgz (remap mgz sort maps) req)) ↔
      (∀ it ∈ maps, Found mgz req it → Outdone mgz maps req it ∨ P it.2) ∧
        ((∃ it ∈ maps, Found mgz req it) ∨ P none) := by
  constructor
  · intro h
    have hresult : ∀ result,
        ((∃ it, LongestFound mgz maps req it ∧ it.2 = result) ∨
          result = none ∧ ∀ it ∈ maps, ¬Found mgz req it) → P result := by
      intro result hresult
      obtain ⟨sort, hsort, rfl⟩ := exists_findApp_iff.mpr hresult
      exact h sort hsort
    refine ⟨fun it hit hfound => ?_, ?_⟩
    · refine or_iff_not_imp_left.mpr fun houtdone => ?_
      have hlongest := longestFound_iff_not_outdone.mpr ⟨hit, hfound, houtdone⟩
      exact hresult it.2 (Or.inl ⟨it, hlongest, rfl⟩)
    · refine or_iff_not_imp_left.mpr fun hnone => hresult none (Or.inr ⟨rfl, ?_⟩)
      exact fun it hit hfound => hnone ⟨it, hit, hfound⟩
  · rintro ⟨hentries, hnone⟩ sort hsort
    rcases exists_findApp_iff.mp ⟨sort, hsort, rfl⟩ with ⟨it, hlongest, hresult⟩ | ⟨hresult, hall⟩
    · obtain ⟨hit, hfound, houtdone⟩ := longestFound_iff_not_outdone.mp hlongest
      rw [← hresult]
      exact (hentries it hit hfound).resolve_left houtdone
    · rw [hresult]
      exact hnone.resolve_left fun ⟨it, hit, hfound⟩ => hall it hit hfound

/-- `find_app` follows the host of the request, however the table is sorted, exactly when

- each entry of another host that is found is outdone, unless an entry of the request's host or of
  no host holds the same app;
- where a path is contested, each entry that is found is outdone, unless it holds an app that the
  request's host has registered for a path as long, and some entry is found, unless the request's
  host has registered a null pointer for such a path. -/
theorem hostAware_iff (maps : List (Bytes × Option App)) (req : Request) :
    (∀ sort, SortsMappings sort →
      HostAware mgz maps req (findApp mgz (remap mgz sort maps) req)) ↔
      (∀ it ∈ maps, Found mgz req it → Foreign req it.1 → it.2 ≠ none →
        Outdone mgz maps req it ∨
          ∃ it' ∈ maps, Found mgz req it' ∧ ¬Foreign req it'.1 ∧ it'.2 = it.2) ∧
      ∀ host path, Contested mgz maps req host path →
        (∀ it ∈ maps, Found mgz req it →
          Outdone mgz maps req it ∨ Registered mgz maps req host path it.2) ∧
        ((∃ it ∈ maps, Found mgz req it) ∨ Registered mgz maps req host path none) := by
  rw [forall_findApp_iff]
  constructor
  · rintro ⟨hentries, hnone⟩
    refine ⟨fun it hit hfound _ happ => ?_, fun host path hcontested => ⟨?_, ?_⟩⟩
    · refine (hentries it hit hfound).imp_right fun haware => ?_
      obtain ⟨app, happ⟩ := Option.ne_none_iff_exists'.mp happ
      rw [happ]
      exact haware.respects app happ
    · intro it hit hfound
      exact (hentries it hit hfound).imp_right fun haware => haware.chooses host path hcontested
    · exact hnone.imp_right fun haware => haware.chooses host path hcontested
  · rintro ⟨hforeign, hcontested⟩
    refine ⟨fun it hit hfound => or_iff_not_imp_left.mpr fun houtdone => ⟨?_, ?_⟩,
      or_iff_not_imp_left.mpr fun hnone => ⟨?_, ?_⟩⟩
    · intro app happ
      by_cases hhost : Foreign req it.1
      · have hne : it.2 ≠ none := happ ▸ Option.some_ne_none app
        obtain ⟨it', hit', hfound', hown, heq⟩ :=
          (hforeign it hit hfound hhost hne).resolve_left houtdone
        exact ⟨it', hit', hfound', hown, heq.trans happ⟩
      · exact ⟨it, hit, hfound, hhost, happ⟩
    · intro host path h
      exact ((hcontested host path h).1 it hit hfound).resolve_left houtdone
    · intro app happ
      cases happ
    · intro host path h
      exact (hcontested host path h).2.resolve_left hnone

/-- Only the uri of a request matters. -/
theorem findApp_congr {req req' : Request} (h : req.uri = req'.uri)
    (mapping : List (Mapping App)) : findApp mgz mapping req = findApp mgz mapping req' := by
  rw [findApp, findApp, h]

/-- Where two hosts share a path, and have no app in common for it and for the paths below it, no
table follows the host of both requests for it. -/
theorem not_hostAware_of_shared_path {maps : List (Bytes × Option App)} {req req' : Request}
    (huri : req.uri = req'.uri) {host host' path : Bytes}
    (hcontested : Contested mgz maps req host path)
    (hcontested' : Contested mgz maps req' host' path)
    (happs : ∀ app, Registered mgz maps req host path app →
      ¬Registered mgz maps req' host' path app) (mapping : List (Mapping App)) :
    ¬(HostAware mgz maps req (findApp mgz mapping req) ∧
      HostAware mgz maps req' (findApp mgz mapping req')) := by
  rintro ⟨haware, haware'⟩
  have hchosen := haware.chooses host path hcontested
  rw [findApp_congr huri] at hchosen
  exact happs _ hchosen (haware'.chooses host' path hcontested')

/-- The argument of a constructor with one path under two hosts. -/
def twoHosts : List (Bytes × Option ℕ) :=
  [(str "http://a/x", some 1), (str "http://b/x", some 2)]

/-- `GET /x HTTP/1.1` with `Host: b`. -/
def requestForB : Request :=
  { Request.get (str "/x") rfl with header := Header.empty.assign (str "Host") (.string (str "b")) }

theorem hostAware_fails :
    ¬∀ sort, SortsMappings sort →
      HostAware Mgz.regex twoHosts requestForB
        (findApp Mgz.regex (remap Mgz.regex sort twoHosts) requestForB) := by
  intro h
  have hresult : findApp Mgz.regex (remap Mgz.regex stableSort twoHosts) requestForB = some 1 := by
    decide +kernel
  have haware := h stableSort stableSort_sorts
  rw [hresult] at haware
  obtain ⟨it, hit, -, hown, happ⟩ := haware.respects 1 rfl
  -- the app is registered once, under the host `a`
  have hkey : ∀ it ∈ twoHosts, it.2 = some 1 → it.1 = str "http://a/x" := by decide
  rw [hkey it hit happ] at hown
  exact hown ⟨str "a", str "/x", by decide, by decide⟩

end Lhs.Middleware.Urlmap
