import LhsServer.Library.LexPath
import LhsServer.Library.SortedTable
import LhsServer.Middleware.Urlmap

/-!
# Routing by the longest location

What `find_app` returns on the table that the constructor of `urlmap` builds, for any way in which
`std::sort` orders locations of one length.

- `findApp_remap`: the app of a mapping that has the longest location among those whose pattern is
  found in the uri;
- `pattern_found_iff`: the pattern of a location is found in the uris that start with the location
  once each run of `/` is taken as one;
- `findApp_longest`: routing by the longest prefix, for locations without hosts.
-/

namespace Lhs.Middleware.Urlmap

open Bytes Http

variable {App : Type} (mgz : Mgz)

/-! ## The table -/

section Table

/-- The test in the loop of `find_app`. -/
def patternFound (req : Request) (m : Mapping App) : Bool := (mgz.find m.pattern req.uri).isSome

/-- The pattern of the mapping made of an entry is found in the uri. -/
def Found (req : Request) (it : Bytes × Option App) : Prop :=
  patternFound mgz req (mappingOf mgz it.1 it.2)

/-- The mappings made of the entries. -/
def mappings (maps : List (Bytes × Option App)) : List (Mapping App) :=
  maps.map fun it => mappingOf mgz it.1 it.2

/-- The entry has the longest location among those whose pattern is found in the uri. -/
structure LongestFound (maps : List (Bytes × Option App)) (req : Request)
    (it : Bytes × Option App) : Prop where
  mem : it ∈ maps
  found : Found mgz req it
  le : ∀ it' ∈ maps, Found mgz req it' →
    (mappingOf mgz it'.1 it'.2).location.length ≤ (mappingOf mgz it.1 it.2).location.length

/-- A way to sort mappings by `sortmapping`. -/
abbrev SortsMappings (sort : List (Mapping App) → List (Mapping App)) : Prop :=
  SortedTable.Sorts sortmapping sort

/-- Longer locations come first. -/
theorem sortmapping_iff (a b : Mapping App) :
    sortmapping a b = true ↔ b.location.length < a.location.length := by
  simp [sortmapping]

/-- Sorting that leaves locations of one length in the order in which they stand. -/
def stableSort : List (Mapping App) → List (Mapping App) :=
  SortedTable.sortByRank fun m => m.location.length

/-- The stable sort is one of the sorts that `std::sort` may be. -/
theorem stableSort_sorts : SortsMappings (stableSort : List (Mapping App) → List (Mapping App)) :=
  SortedTable.sorts_sortByRank sortmapping_iff

/-- The table is built from the mappings of the entries. -/
theorem remap_eq_build (sort : List (Mapping App) → List (Mapping App))
    (maps : List (Bytes × Option App)) :
    remap mgz sort maps = SortedTable.build sort (mappings mgz maps) := by
  rw [remap, SortedTable.build, mappings, List.foldl_map]

/-- `find_app` returns the first app whose pattern is found. -/
theorem findApp_eq (mapping : List (Mapping App)) (req : Request) :
    findApp mgz mapping req = (mapping.find? (patternFound mgz req)).bind Mapping.app := by
  rw [findApp]
  unfold patternFound
  split
  · rename_i m h
    rw [h, Option.bind_some]
  · rename_i h
    rw [h, Option.bind_none]

variable {mgz}

/-- The mappings a lookup finds are those of the entries with the longest location. -/
theorem highest_iff {maps : List (Bytes × Option App)} {req : Request} {m : Mapping App} :
    SortedTable.Highest (fun m => m.location.length) (patternFound mgz req) (mappings mgz maps) m ↔
      ∃ it, LongestFound mgz maps req it ∧ mappingOf mgz it.1 it.2 = m := by
  constructor
  · rintro ⟨hmem, hfound, hle⟩
    obtain ⟨it, hit, rfl⟩ := List.mem_map.mp hmem
    exact ⟨it, ⟨hit, hfound, fun it' hit' => hle _ (List.mem_map_of_mem hit')⟩, rfl⟩
  · rintro ⟨it, ⟨hit, hfound, hle⟩, rfl⟩
    exact ⟨List.mem_map_of_mem hit, hfound, List.forall_mem_map.mpr hle⟩

/-- The results of `find_app`, taken over all the ways to sort the table: the apps of the entries
with the longest location, or a null pointer where no pattern is found. -/
theorem exists_findApp_iff {maps : List (Bytes × Option App)} {req : Request}
    {result : Option App} :
    (∃ sort, SortsMappings sort ∧ findApp mgz (remap mgz sort maps) req = result) ↔
      (∃ it, LongestFound mgz maps req it ∧ it.2 = result) ∨
        result = none ∧ ∀ it ∈ maps, ¬Found mgz req it := by
  simp only [findApp_eq, remap_eq_build]
  constructor
  · rintro ⟨sort, hsort, rfl⟩
    cases hfind : (SortedTable.build sort (mappings mgz maps)).find? (patternFound mgz req) with
    | none =>
      rw [SortedTable.find?_build_eq_none_iff fun l => (hsort l).1] at hfind
      exact Or.inr ⟨rfl, fun it hit => hfind _ (List.mem_map_of_mem hit)⟩
    | some m =>
      obtain ⟨it, hit, rfl⟩ := highest_iff.mp (SortedTable.find?_build sortmapping_iff hsort hfind)
      exact Or.inl ⟨it, hit, rfl⟩
  · rintro (⟨it, hit, rfl⟩ | ⟨rfl, hnone⟩)
    · obtain ⟨sort, hsort, hfind⟩ := SortedTable.exists_sorts_find?_build sortmapping_iff
        (highest_iff.mpr ⟨it, hit, rfl⟩)
      exact ⟨sort, hsort, by rw [hfind]; rfl⟩
    · have hfind : (SortedTable.build stableSort (mappings mgz maps)).find? (patternFound mgz req) =
          none :=
        (SortedTable.find?_build_eq_none_iff fun l => (stableSort_sorts l).1).mpr
          (List.forall_mem_map.mpr hnone)
      exact ⟨stableSort, stableSort_sorts, by rw [hfind]; rfl⟩

end Table

/-! ## The pattern of a location -/

section Pattern

/-- `m.match`, from the location of the mapping. -/
def patternOf (location : Bytes) : Bytes :=
  str "^" ++ mgz.replaceAll (mgz.quote location) (str "/") (str "/+") ++ str "(.*)"

theorem mappingOf_pattern (key : Bytes) (app : Option App) :
    (mappingOf mgz key app).pattern = patternOf mgz (mappingOf mgz key app).location := rfl

/-- Of the characters of a location only `/` may be repeated. -/
def repeated (c : UInt8) : Regex.Quantifier := if c = slash then .plus else .one

/-- The elements of the pattern of a location. -/
def locationNodes (location : Bytes) : List (Regex.Node UInt8) :=
  location.map fun c => .chars (· == c) (repeated c)

/-- `/` is spelled with one `/`, and no other character with any. -/
theorem flatMap_replace_spelling {t : Bytes} {c : UInt8} (h : Regex.Spells t c) :
    (t.flatMap fun d => if d = slash then str "/+" else [d]) = t ++ (repeated c).mark := by
  have hmark : ∀ d : UInt8, (if d = slash then str "/+" else [d]) = d :: (repeated d).mark := by
    intro d
    rw [repeated]
    split
    · rename_i hd
      rw [hd]
      rfl
    · rfl
  cases h with
  | bare h => simp [hmark]
  | escaped h =>
    have hback : (repeated 92).mark = [] := rfl
    simp [hmark, hback]
  | @control e c halnum h =>
    have hback : (repeated 92).mark = [] := rfl
    have he : (repeated e).mark = [] := by
      have hne : e ≠ slash := by
        rintro rfl
        cases halnum
      rw [repeated, if_neg hne]
      rfl
    have hc : (repeated c).mark = [] := by
      have hne : c ≠ slash := by
        rintro rfl
        exact absurd (Regex.lt_of_control h) (by decide)
      rw [repeated, if_neg hne]
      rfl
    simp [hmark, hback, he, hc]

variable {mgz} {any : UInt8 → Bool} (hfind : mgz.SearchesRegex any) (hquote : mgz.QuotesLiterally)
  (hreplace : mgz.ReplacesAll)

include hquote hreplace in
/-- The pattern of a location as it is read. -/
theorem parse_patternOf (location : Bytes) :
    Regex.parse any (patternOf mgz location) =
      some
        { anchored := true
          nodes := locationNodes location ++ [.openGroup, .chars any .star, .closeGroup] } := by
  obtain ⟨spelling, hspelling, hquote⟩ := hquote
  have htext : mgz.replaceAll (mgz.quote location) (str "/") (str "/+") =
      location.flatMap fun c => spelling c ++ (repeated c).mark := by
    have hslash : str "/" = [slash] := rfl
    rw [hquote, hslash, hreplace, List.flatMap_assoc]
    exact congrArg (location.flatMap ·) (funext fun c => flatMap_replace_spelling (hspelling c))
  rw [patternOf, htext]
  exact Regex.parse_spelled hspelling repeated location

/-- The elements of a location match the start of a text where the location starts the text, once
each run of `/` is taken as one. -/
theorem accepts_locationNodes_iff {location : Bytes} (h : ¬[slash, slash] <:+: location)
    (s : Bytes) :
    Regex.Accepts (locationNodes location ++ [.openGroup, .chars any .star, .closeGroup]) s ↔
      location <+: LexPath.squeeze slash s := by
  induction location generalizing s with
  | nil => simpa [locationNodes] using Regex.accepts_anyGroup any s
  | cons c location ih =>
    have hrest : ¬[slash, slash] <:+: location := fun hsub =>
      h (hsub.trans (List.suffix_cons c location).isInfix)
    rw [locationNodes, List.map_cons, List.cons_append, ← locationNodes]
    by_cases hc : c = slash
    · have hhead : location.head? ≠ some slash := by
        intro hhead
        obtain ⟨t, rfl⟩ := List.head?_eq_some_iff.mp hhead
        exact h (hc ▸ ⟨[], t, rfl⟩)
      rw [hc, LexPath.sep_cons_prefix_squeeze_iff hhead, repeated, if_pos rfl, Regex.accepts_plus]
      simp only [ih hrest, beq_iff_eq]
    · rw [LexPath.cons_prefix_squeeze_iff hc, repeated, if_neg hc, Regex.accepts_one]
      simp only [ih hrest, beq_iff_eq]
      constructor
      · rintro ⟨a, rest, rfl, rfl, hprefix⟩
        exact ⟨rest, rfl, hprefix⟩
      · rintro ⟨rest, rfl, hprefix⟩
        exact ⟨c, rest, rfl, rfl, hprefix⟩

include hfind hquote hreplace in
/-- The pattern of a location is found in the texts that start with the location, once each run of
`/` is taken as one. -/
theorem pattern_found_iff {location : Bytes} (h : ¬[slash, slash] <:+: location) (s : Bytes) :
    (mgz.find (patternOf mgz location) s).isSome ↔ location <+: LexPath.squeeze slash s := by
  rw [hfind _ _ (parse_patternOf hquote hreplace location), Regex.Occurs, if_pos rfl]
  exact accepts_locationNodes_iff h s

/-! ## Locations without hosts -/

/-- `https?:`, the elements in front of the host. -/
def schemeNodes : List (Regex.Node UInt8) :=
  [.chars (· == 104) .one, .chars (· == 116) .one, .chars (· == 116) .one, .chars (· == 112) .one,
    .chars (· == 115) .opt, .chars (· == colon) .one]

variable (any) in
/-- `//(.*)(/.*)`, the elements of the host and the location. -/
def hostNodes : List (Regex.Node UInt8) :=
  [.chars (· == slash) .one, .chars (· == slash) .one, .openGroup, .chars any .star, .closeGroup,
    .openGroup, .chars (· == slash) .one, .chars any .star, .closeGroup]

theorem parse_hostPattern :
    Regex.parse any (str "https?://(.*)(/.*)") =
      some { anchored := false, nodes := schemeNodes ++ hostNodes any } := rfl

include hfind in
/-- A key without `//` has no host, and is the location itself. -/
theorem mappingOf_location {key : Bytes} (h : ¬[slash, slash] <:+: key) (app : Option App) :
    (mappingOf mgz key app).location = key := by
  have hnone : mgz.find (str "https?://(.*)(/.*)") key = none := by
    rw [← Option.not_isSome_iff_eq_none, hfind _ _ parse_hostPattern, Regex.Occurs,
      if_neg Bool.false_ne_true]
    rintro ⟨t, ht, hmatch⟩
    obtain ⟨t', ht', hmatch⟩ := Regex.exists_suffix_of_accepts_append hmatch
    obtain ⟨a, rest, rfl, ha, hmatch⟩ := Regex.accepts_one.mp hmatch
    obtain ⟨b, rest, rfl, hb, -⟩ := Regex.accepts_one.mp hmatch
    rw [beq_iff_eq.mp ha, beq_iff_eq.mp hb] at ht'
    exact h ((List.prefix_append [slash, slash] rest).isInfix.trans (ht'.trans ht).isInfix)
  rw [mappingOf, hnone]

end Pattern

/-! ## Routing -/

section Routing

/-- The entry has the longest location among those that start a path. -/
structure LongestPrefix (maps : List (Bytes × App)) (path : Bytes) (it : Bytes × App) : Prop where
  mem : it ∈ maps
  isPrefix : it.1 <+: path
  le : ∀ it' ∈ maps, it'.1 <+: path → it'.1.length ≤ it.1.length

/-- The argument of the constructor, where no app is a null pointer. -/
def nonNull (maps : List (Bytes × App)) : List (Bytes × Option App) :=
  maps.map fun it => (it.1, some it.2)

/-- Of distinct locations at most one is the longest that starts a path. -/
theorem LongestPrefix.unique {maps : List (Bytes × App)} (hnodup : (maps.map Prod.fst).Nodup)
    {path : Bytes} {it it' : Bytes × App} (h : LongestPrefix maps path it)
    (h' : LongestPrefix maps path it') : it = it' := by
  have hlength : it.1.length = it'.1.length :=
    Nat.le_antisymm (h'.le it h.mem h.isPrefix) (h.le it' h'.mem h'.isPrefix)
  have hkey : it.1 = it'.1 :=
    (List.prefix_of_prefix_length_le h.isPrefix h'.isPrefix hlength.le).eq_of_length hlength
  exact List.inj_on_of_nodup_map hnodup h.mem h'.mem hkey

variable {mgz} {any : UInt8 → Bool} (hfind : mgz.SearchesRegex any) (hquote : mgz.QuotesLiterally)
  (hreplace : mgz.ReplacesAll)

include hfind hquote hreplace

/-- The pattern of a key is found where the key is a prefix, up to runs of slashes. -/
theorem found_iff {key : Bytes} (h : ¬[slash, slash] <:+: key) (app : Option App) (req : Request) :
    Found mgz req (key, app) ↔ key <+: LexPath.squeeze slash req.uri := by
  rw [Found, patternFound, mappingOf_pattern, mappingOf_location hfind h]
  exact pattern_found_iff hfind hquote hreplace h req.uri

/-- The longest location that is found is the longest that starts the uri. -/
theorem longestFound_iff {maps : List (Bytes × App)} (h : ∀ it ∈ maps, ¬[slash, slash] <:+: it.1)
    {req : Request} {it : Bytes × Option App} :
    LongestFound mgz (nonNull maps) req it ↔
      ∃ e, LongestPrefix maps (LexPath.squeeze slash req.uri) e ∧ (e.1, some e.2) = it := by
  have hfound : ∀ e ∈ maps, Found mgz req (e.1, some e.2) ↔
      e.1 <+: LexPath.squeeze slash req.uri :=
    fun e he => found_iff hfind hquote hreplace (h e he) (some e.2) req
  have hlocation : ∀ e ∈ maps, (mappingOf mgz e.1 (some e.2)).location = e.1 :=
    fun e he => mappingOf_location hfind (h e he) (some e.2)
  constructor
  · rintro ⟨hmem, hit, hle⟩
    obtain ⟨e, he, rfl⟩ := List.mem_map.mp hmem
    refine ⟨e, ⟨he, (hfound e he).mp hit, fun e' he' hprefix => ?_⟩, rfl⟩
    have hle' := hle _ (List.mem_map_of_mem he') ((hfound e' he').mpr hprefix)
    rwa [hlocation e he, hlocation e' he'] at hle'
  · rintro ⟨e, ⟨he, hprefix, hle⟩, rfl⟩
    refine ⟨List.mem_map_of_mem he, (hfound e he).mpr hprefix, fun it' hit' hfound' => ?_⟩
    obtain ⟨e', he', rfl⟩ := List.mem_map.mp hit'
    rw [hlocation e he, hlocation e' he']
    exact hle e' he' ((hfound e' he').mp hfound')

/-- However the table is sorted, the result is the app of a longest location that starts the uri, or
a null pointer where no location does. -/
theorem findApp_nonNull {maps : List (Bytes × App)}
    (hslashes : ∀ it ∈ maps, ¬[slash, slash] <:+: it.1) (req : Request)
    {sort : List (Mapping App) → List (Mapping App)} (hsort : SortsMappings sort) :
    (∃ it, LongestPrefix maps (LexPath.squeeze slash req.uri) it ∧
      findApp mgz (remap mgz sort (nonNull maps)) req = some it.2) ∨
    findApp mgz (remap mgz sort (nonNull maps)) req = none ∧
      ∀ it ∈ maps, ¬it.1 <+: LexPath.squeeze slash req.uri := by
  rcases exists_findApp_iff.mp ⟨sort, hsort, rfl⟩ with ⟨it, hlongest, hresult⟩ | ⟨hresult, hnone⟩
  · obtain ⟨e, he, rfl⟩ := (longestFound_iff hfind hquote hreplace hslashes).mp hlongest
    exact Or.inl ⟨e, he, hresult.symm⟩
  · refine Or.inr ⟨hresult, fun it hit hprefix => hnone _ (List.mem_map_of_mem hit) ?_⟩
    exact (found_iff hfind hquote hreplace (hslashes it hit) _ req).mpr hprefix

/-- On distinct locations without `//`, `find_app` gives the app of the longest location that starts
the uri once each run of `/` is taken as one, and a null pointer if there is none, whatever the
order of locations of equal length. -/
theorem findApp_longest {maps : List (Bytes × App)} (hnodup : (maps.map Prod.fst).Nodup)
    (hslashes : ∀ it ∈ maps, ¬[slash, slash] <:+: it.1) (req : Request) :
    (∀ sort, SortsMappings sort →
      (∀ app, findApp mgz (remap mgz sort (nonNull maps)) req = some app ↔
        ∃ location, LongestPrefix maps (LexPath.squeeze slash req.uri) (location, app)) ∧
      (findApp mgz (remap mgz sort (nonNull maps)) req = none ↔
        ∀ it ∈ maps, ¬it.1 <+: LexPath.squeeze slash req.uri)) ∧
    (∀ it it', LongestPrefix maps (LexPath.squeeze slash req.uri) it →
      LongestPrefix maps (LexPath.squeeze slash req.uri) it' → it = it') ∧
    ∀ sort sort', SortsMappings sort → SortsMappings sort' →
      findApp mgz (remap mgz sort (nonNull maps)) req =
        findApp mgz (remap mgz sort' (nonNull maps)) req := by
  have hunique : ∀ it it', LongestPrefix maps (LexPath.squeeze slash req.uri) it →
      LongestPrefix maps (LexPath.squeeze slash req.uri) it' → it = it' :=
    fun _ _ => LongestPrefix.unique hnodup
  have hresult : ∀ sort, SortsMappings sort →
      (∀ app, findApp mgz (remap mgz sort (nonNull maps)) req = some app ↔
        ∃ location, LongestPrefix maps (LexPath.squeeze slash req.uri) (location, app)) ∧
      (findApp mgz (remap mgz sort (nonNull maps)) req = none ↔
        ∀ it ∈ maps, ¬it.1 <+: LexPath.squeeze slash req.uri) := by
    intro sort hsort
    rcases findApp_nonNull hfind hquote hreplace hslashes req hsort with
      ⟨it, hit, hresult⟩ | ⟨hresult, hnone⟩
    · rw [hresult]
      refine ⟨fun app => ⟨?_, ?_⟩, by simp, fun hnone => absurd hit.isPrefix (hnone it hit.mem)⟩
      · intro happ
        exact ⟨it.1, Option.some.inj happ ▸ hit⟩
      · rintro ⟨location, hlongest⟩
        rw [hunique it _ hit hlongest]
    · rw [hresult]
      refine ⟨fun app => ⟨by simp, ?_⟩, fun _ => hnone, fun _ => rfl⟩
      rintro ⟨location, hlongest⟩
      exact absurd hlongest.isPrefix (hnone _ hlongest.mem)
  refine ⟨hresult, hunique, fun sort sort' hsort hsort' => ?_⟩
  ext app
  rw [(hresult sort hsort).1 app, (hresult sort' hsort').1 app]

end Routing

theorem findApp_longest_sample :
    findApp Mgz.regex
        (remap Mgz.regex stableSort (nonNull [(str "/", 1), (str "/a", 2), (str "/b", 3)]))
        (Request.get (str "//a//b") rfl) = some 2 :=
  (((findApp_longest Mgz.regex_searchesRegex Mgz.regex_quotesLiterally Mgz.regex_replacesAll
    (by decide) (by decide) (Request.get (str "//a//b") rfl)).1 stableSort stableSort_sorts).1
      2).mpr ⟨str "/a", by decide, by decide, by decide⟩

end Lhs.Middleware.Urlmap
