import LhsServer.Correctness.Routing

/-!
# Mount points and segments

What `find_app` takes off the start of a uri for a location, and where that ends: at the end of a
segment, or inside of one.

- `Consumes`, `found_iff_starts`: the pattern of a location is found where the location consumes the
  start of the uri;
- `RespectsBoundaries`: the location that is chosen ends at a boundary, and no location that does so
  is longer;
- `respectsBoundaries_iff`: when that is so.
-/

namespace Lhs.Middleware.Urlmap

open Bytes Http

variable {App : Type}

/-! ## What a location consumes -/

/-- The text that a location stands for: each `/` for one or more, any other character for
itself. -/
def Consumes : Bytes → Bytes → Prop
  | [], text => text = []
  | c :: location, text =>
    ∃ v rest, text = v ++ rest ∧ (if c = slash then v ≠ [] ∧ ∀ a ∈ v, a = slash else v = [c]) ∧
      Consumes location rest

/-- The uri starts with what the location stands for. -/
def Starts (location uri : Bytes) : Prop :=
  ∃ consumed rest, uri = consumed ++ rest ∧ Consumes location consumed

/-- What has been consumed ends with `/`, or is followed by the end of the uri, by `/` or by `?`. -/
def AtBoundary (consumed rest : Bytes) : Prop :=
  consumed.getLast? = some slash ∨ rest = [] ∨ rest.head? = some slash ∨
    rest.head? = some question

instance (consumed rest : Bytes) : Decidable (AtBoundary consumed rest) :=
  inferInstanceAs (Decidable (_ ∨ _ ∨ _ ∨ _))

/-- The location starts the uri and ends at a boundary. -/
def StartsSegments (location uri : Bytes) : Prop :=
  ∃ consumed rest, uri = consumed ++ rest ∧ Consumes location consumed ∧ AtBoundary consumed rest

/-- The location starts the uri and ends inside of a segment. -/
def EndsInside (location uri : Bytes) : Prop :=
  ∃ consumed rest, uri = consumed ++ rest ∧ Consumes location consumed ∧ ¬AtBoundary consumed rest

theorem StartsSegments.starts {location uri : Bytes} (h : StartsSegments location uri) :
    Starts location uri := by
  obtain ⟨consumed, rest, huri, hconsumes, -⟩ := h
  exact ⟨consumed, rest, huri, hconsumes⟩

theorem accepts_repeated_iff (c : UInt8) (v : Bytes) :
    (Regex.Node.chars (· == c) (repeated c)).Accepts v ↔
      if c = slash then v ≠ [] ∧ ∀ a ∈ v, a = slash else v = [c] := by
  rw [Regex.Node.Accepts, repeated]
  split
  · rename_i hc
    simp [Regex.Quantifier.admits, hc, List.length_pos_iff]
  · simp only [Regex.Quantifier.admits, beq_iff_eq]
    constructor
    · rintro ⟨hlength, hv⟩
      obtain ⟨a, rfl⟩ := List.length_eq_one_iff.mp hlength
      rw [hv a List.mem_cons_self]
    · rintro rfl
      simp

/-- The elements of a location match the start of a text that starts with what it stands for. -/
theorem accepts_iff_starts (any : UInt8 → Bool) (location s : Bytes) :
    Regex.Accepts (locationNodes location ++ [.openGroup, .chars any .star, .closeGroup]) s ↔
      Starts location s := by
  induction location generalizing s with
  | nil => exact iff_of_true (Regex.accepts_anyGroup any s) ⟨[], s, rfl, rfl⟩
  | cons c location ih =>
    rw [locationNodes, List.map_cons, List.cons_append, ← locationNodes, Regex.accepts_cons]
    simp only [accepts_repeated_iff, ih]
    constructor
    · rintro ⟨v, -, rfl, hv, consumed, rest, rfl, hconsumed⟩
      exact ⟨v ++ consumed, rest, (List.append_assoc _ _ _).symm, v, consumed, rfl, hv, hconsumed⟩
    · rintro ⟨-, rest, rfl, v, consumed, rfl, hv, hconsumed⟩
      exact ⟨v, consumed ++ rest, List.append_assoc _ _ _, hv, consumed, rest, rfl, hconsumed⟩

/-! ## The location that is chosen -/

variable (mgz : Mgz)

/-- The mapping whose app `find_app` returns. -/
def chosen (sort : List (Mapping App) → List (Mapping App)) (maps : List (Bytes × Option App))
    (req : Request) : Option (Mapping App) :=
  (remap mgz sort maps).find? (patternFound mgz req)

/-- The location of the mapping made of an entry. -/
def locationOf (it : Bytes × Option App) : Bytes := (mappingOf mgz it.1 it.2).location

/-- However the table is sorted, the location that is chosen ends at a boundary, and those of the
entries that do so are not longer; and if none is chosen, none of them ends at a boundary. -/
def RespectsBoundaries (maps : List (Bytes × Option App)) (req : Request) : Prop :=
  ∀ sort, SortsMappings sort →
    (∀ m, chosen mgz sort maps req = some m →
      (∀ consumed rest, req.uri = consumed ++ rest → Consumes m.location consumed →
        AtBoundary consumed rest) ∧
      ∀ it ∈ maps, StartsSegments (locationOf mgz it) req.uri →
        (locationOf mgz it).length ≤ m.location.length) ∧
    (chosen mgz sort maps req = none →
      ∀ it ∈ maps, ¬StartsSegments (locationOf mgz it) req.uri)

section Choice

variable {mgz} {any : UInt8 → Bool} (hfind : mgz.SearchesRegex any) (hquote : mgz.QuotesLiterally)
  (hreplace : mgz.ReplacesAll)

include hfind hquote hreplace

/-- The pattern of a location is found in the uris that start with what it stands for. -/
theorem found_iff_starts (it : Bytes × Option App) (req : Request) :
    Found mgz req it ↔ Starts (locationOf mgz it) req.uri := by
  rw [Found, patternFound, mappingOf_pattern,
    hfind _ _ (parse_patternOf hquote hreplace (mappingOf mgz it.1 it.2).location), Regex.Occurs,
    if_pos rfl]
  exact accepts_iff_starts any _ _

/-- The longest location that is found is the longest of those that start the uri. -/
theorem longestFound_iff_starts {maps : List (Bytes × Option App)} {req : Request}
    {it : Bytes × Option App} :
    LongestFound mgz maps req it ↔
      it ∈ maps ∧ Starts (locationOf mgz it) req.uri ∧
        ∀ it' ∈ maps, Starts (locationOf mgz it') req.uri →
          (locationOf mgz it').length ≤ (locationOf mgz it).length := by
  have hiff : ∀ it : Bytes × Option App, Found mgz req it ↔ Starts (locationOf mgz it) req.uri :=
    fun it => found_iff_starts hfind hquote hreplace it req
  constructor
  · intro h
    refine ⟨h.mem, (hiff it).mp h.found, fun it' hit' hstarts => ?_⟩
    exact h.le it' hit' ((hiff it').mpr hstarts)
  · rintro ⟨hmem, hstarts, hle⟩
    refine ⟨hmem, (hiff it).mpr hstarts, fun it' hit' hfound => ?_⟩
    exact hle it' hit' ((hiff it').mp hfound)

/-- The boundaries are respected exactly when each location that ends inside of a segment of the uri
is outdone by a longer one that starts the uri. -/
theorem respectsBoundaries_iff (maps : List (Bytes × Option App)) (req : Request) :
    (∀ sort, findApp mgz (remap mgz sort maps) req =
      (chosen mgz sort maps req).bind Mapping.app) ∧
    (RespectsBoundaries mgz maps req ↔
      ∀ it ∈ maps, EndsInside (locationOf mgz it) req.uri →
        ∃ it' ∈ maps, (locationOf mgz it).length < (locationOf mgz it').length ∧
          Starts (locationOf mgz it') req.uri) := by
  refine ⟨fun sort => findApp_eq mgz _ req, ?_, ?_⟩
  · rintro h it hit ⟨consumed, rest, huri, hconsumes, hinside⟩
    by_contra hlonger
    simp only [not_exists, not_and] at hlonger
    -- then some way to sort the table chooses this location
    have hlongest : LongestFound mgz maps req it := by
      refine (longestFound_iff_starts hfind hquote hreplace).mpr
        ⟨hit, ⟨consumed, rest, huri, hconsumes⟩, fun it' hit' hstarts => ?_⟩
      by_contra hlt
      exact hlonger it' hit' (Nat.lt_of_not_le hlt) hstarts
    obtain ⟨sort, hsort, hchosen⟩ := SortedTable.exists_sorts_find?_build sortmapping_iff
      (highest_iff.mpr ⟨it, hlongest, rfl⟩)
    rw [← remap_eq_build] at hchosen
    exact hinside (((h sort hsort).1 _ hchosen).1 consumed rest huri hconsumes)
  · intro h sort hsort
    constructor
    · intro m hchosen
      rw [chosen, remap_eq_build] at hchosen
      obtain ⟨it, hlongest, rfl⟩ :=
        highest_iff.mp (SortedTable.find?_build sortmapping_iff hsort hchosen)
      obtain ⟨hit, -, hle⟩ := (longestFound_iff_starts hfind hquote hreplace).mp hlongest
      refine ⟨fun consumed rest huri hconsumes => ?_, fun it' hit' hstarts => ?_⟩
      · by_contra hinside
        obtain ⟨it', hit', hlt, hstarts⟩ :=
          h it hit ⟨consumed, rest, huri, hconsumes, hinside⟩
        exact Nat.not_le_of_lt hlt (hle it' hit' hstarts)
      · exact hle it' hit' hstarts.starts
    · intro hchosen it hit hstarts
      rw [chosen, remap_eq_build,
        SortedTable.find?_build_eq_none_iff fun l => (hsort l).1] at hchosen
      exact hchosen _ (List.mem_map_of_mem hit)
        ((found_iff_starts hfind hquote hreplace it req).mpr hstarts.starts)

end Choice

/-- The location `/` ends at a boundary wherever it is found. -/
theorem respectsBoundaries_sample :
    RespectsBoundaries Mgz.regex [(str "/", some 1)] (.get (str "/foobar") rfl) := by
  refine (respectsBoundaries_iff Mgz.regex_searchesRegex Mgz.regex_quotesLiterally
    Mgz.regex_replacesAll [(str "/", some 1)] (.get (str "/foobar") rfl)).2.mpr ?_
  intro it hit hinside
  rw [List.mem_singleton.mp hit] at hinside
  obtain ⟨consumed, rest, -, hconsumes, hnot⟩ := hinside
  have hlocation : locationOf Mgz.regex (str "/", some 1) = [slash] := by decide
  rw [hlocation] at hconsumes
  obtain ⟨v, _, rfl, hv, rfl⟩ := hconsumes
  -- what is consumed is made of `/`
  obtain ⟨hne, hall⟩ : v ≠ [] ∧ ∀ a ∈ v, a = slash := by simpa using hv
  refine absurd (Or.inl ?_) hnot
  rw [List.append_nil, List.getLast?_eq_getLast_of_ne_nil hne, hall _ (List.getLast_mem hne)]

/-- The location `/foo` captures the request for `/foobar`, although `/` ends at a boundary. -/
theorem respectsBoundaries_fails :
    findApp Mgz.regex (remap Mgz.regex stableSort [(str "/", some 1), (str "/foo", some 2)])
        (.get (str "/foobar") rfl) = some 2 ∧
      StartsSegments (str "/") (str "/foobar") ∧
      ¬RespectsBoundaries Mgz.regex [(str "/", some 1), (str "/foo", some 2)]
        (.get (str "/foobar") rfl) := by
  refine ⟨by decide, ⟨str "/", str "foobar", by decide, ⟨str "/", [], rfl, by decide +kernel, rfl⟩,
    by decide⟩, fun h => ?_⟩
  have hchosen : chosen Mgz.regex stableSort [(str "/", some 1), (str "/foo", some 2)]
      (.get (str "/foobar") rfl) = some (mappingOf Mgz.regex (str "/foo") (some 2)) := rfl
  have hlocation : (mappingOf Mgz.regex (str "/foo") (some 2)).location = str "/foo" := by decide
  have hboundary := ((h stableSort stableSort_sorts).1 _ hchosen).1 (str "/foo") (str "bar")
    (by decide) (by
      rw [hlocation]
      exact ⟨str "/", str "foo", rfl, by decide +kernel, str "f", str "oo", rfl, by decide, str "o",
        str "o", rfl, by decide, str "o", [], rfl, by decide, rfl⟩)
  exact absurd hboundary (by decide)

end Lhs.Middleware.Urlmap
