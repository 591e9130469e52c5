import LhsServer.Correctness.Parsing
import LhsServer.Library.Bindings
import LhsServer.Library.Framing

/-!
# The request target

How `parse_params` takes a target apart: at its `?` into the path and the query string, at the `&`
of the query string into pieces, and at the first `=` of a piece into the name and the value of a
parameter.

- `parseParams_of_mem`: the parts of a target with a `?` in it, whatever follows;
- `splitsTarget_iff`: nothing of the target is lost exactly when there is at most one `?`;
- `params_eq_iff`: the parameters are those of the query string exactly when every piece without a
  `=` is harmless, because it decodes to nothing or is bound again by a later piece.
-/

namespace Lhs.Http.Request

open Bytes Framing Bindings

/-! ## The parts of a target -/

/-- The text before the first `?`. -/
def untilQuestion (s : Bytes) : Bytes := s.takeWhile (· != question)

/-- The query string of a target: what stands behind its first `?`, up to the next one. -/
def queryOf (uri : Bytes) : Option Bytes :=
  (cut question uri).map fun target => untilQuestion target.2

/-- The parameters the loop of `parse_params` reads from a query string. -/
def readParams (mgz : Mgz) (query : Bytes) : Std.ExtTreeMap Bytes Bytes :=
  (mgz.split query amp).foldl (addParam mgz) ∅

theorem untilQuestion_of_not_mem {s : Bytes} (h : question ∉ s) : untilQuestion s = s := by
  rw [untilQuestion, List.takeWhile_eq_self_iff]
  intro c hc
  rw [bne_iff_ne]
  exact ne_of_mem_of_not_mem hc h

/-- The text up to the first `?`. -/
theorem untilQuestion_append {s : Bytes} (h : question ∉ s) (t : Bytes) :
    untilQuestion (s ++ question :: t) = s := by
  rw [untilQuestion, List.takeWhile_append_of_pos]
  · simp
  · intro c hc
    rw [bne_iff_ne]
    exact ne_of_mem_of_not_mem hc h

/-- The query goes from the first `?` to the next one. -/
theorem queryOf_append {path : Bytes} (h : question ∉ path) (rest : Bytes) :
    queryOf (path ++ question :: rest) = some (untilQuestion rest) := by
  rw [queryOf, cut_append h]
  rfl

/-- Without a `?` there is no query. -/
theorem queryOf_of_not_mem {uri : Bytes} (h : question ∉ uri) : queryOf uri = none := by
  rw [queryOf, cut_eq_none_iff.mpr h]
  rfl

section Split

variable {mgz : Mgz} (hsplit : mgz.SplitsPieces)

include hsplit

/-- A target without a query is a path. -/
theorem parseParams_of_not_mem {uri : Bytes} (h : question ∉ uri) :
    parseParams mgz uri = (uri, [], ∅) := by
  rw [parseParams, hsplit, List.splitOn_eq_singleton h]

/-- The path ends at the first `?`, and the query string at the second. -/
theorem parseParams_of_mem {path : Bytes} (h : question ∉ path) (rest : Bytes) :
    parseParams mgz (path ++ question :: rest) =
      (path, untilQuestion rest, readParams mgz (untilQuestion rest)) := by
  have hpieces : ∃ pieces, rest.splitOn question = untilQuestion rest :: pieces := by
    by_cases hrest : question ∈ rest
    · obtain ⟨query, more, rfl, hquery⟩ := List.eq_append_cons_of_mem hrest
      rw [List.splitOn_append_cons_self_of_not_mem hquery, untilQuestion_append hquery]
      exact ⟨_, rfl⟩
    · rw [List.splitOn_eq_singleton hrest, untilQuestion_of_not_mem hrest]
      exact ⟨_, rfl⟩
  obtain ⟨pieces, hpieces⟩ := hpieces
  rw [parseParams, hsplit, List.splitOn_append_cons_self_of_not_mem h, hpieces]
  rfl

/-- The path is the target up to its first `?`. -/
theorem path_parseParams (uri : Bytes) : (parseParams mgz uri).1 = untilQuestion uri := by
  by_cases h : question ∈ uri
  · obtain ⟨path, rest, rfl, hpath⟩ := List.eq_append_cons_of_mem h
    rw [parseParams_of_mem hsplit hpath, untilQuestion_append hpath]
  · rw [parseParams_of_not_mem hsplit h, untilQuestion_of_not_mem h]

end Split

/-! ## The target of an accepted request -/

/-- The characters of the target of an accepted request: the input has them, and none of them
delimits the words of a line or the lines. -/
theorem mem_uri {mgz : Mgz} (hsplit : mgz.SplitsPieces) {mem : Memory} {data : Bytes} {r : Request}
    (h : parse mgz mem data = .ok r) {c : UInt8} (hc : c ∈ r.uri) :
    c ∈ data ∧ c ≠ SP ∧ c ≠ LF := by
  obtain ⟨-, init, headers, rest, hlines, -, hinit, -⟩ := (parse_eq_ok_iff mgz mem data r).mp h
  obtain ⟨method, version, hpieces, -, -, -⟩ := parseInit_ok hinit
  -- the target is a piece of the first line, and that a line of the input
  rw [hsplit] at hpieces
  have hmem : r.uri ∈ init.splitOn SP := by simp [hpieces]
  obtain ⟨hcinit, hsp⟩ := Lines.mem_of_mem_splitOn hmem hc
  have hfirst : init ∈ linesOf data := by simp [hlines]
  obtain ⟨line, hline, rfl⟩ := List.mem_map.mp hfirst
  obtain ⟨hdata, hlf⟩ := Lines.mem_of_mem_getlines hline (mem_of_mem_stripCR hcinit)
  exact ⟨hdata, hsp, hlf⟩

/-- The path and the query string together are the whole target, and the parameters are read from
the whole query string. -/
structure SplitsTarget (mgz : Mgz) (line : RequestLine) : Prop where
  no_query : question ∉ line.uri →
    line.path = line.uri ∧ line.queryString = [] ∧ line.params = ∅
  query : ∀ path query, line.uri = path ++ question :: query → question ∉ path →
    line.path = path ∧ line.queryString = query ∧
      line.path ++ question :: line.queryString = line.uri ∧ line.params = readParams mgz query

/-- Nothing of the target of an accepted request is lost exactly when it has at most one `?`. -/
theorem splitsTarget_iff {mgz : Mgz} (hsplit : mgz.SplitsPieces) {mem : Memory} {data : Bytes}
    {r : Request} (h : parse mgz mem data = .ok r) :
    SplitsTarget mgz r.toRequestLine ↔ r.uri.count question ≤ 1 := by
  obtain ⟨-, init, headers, rest, -, -, hinit, -⟩ := (parse_eq_ok_iff mgz mem data r).mp h
  obtain ⟨-, -, -, -, -, htarget⟩ := parseInit_ok hinit
  by_cases hquestion : question ∈ r.uri
  · obtain ⟨path, rest, huri, hpath⟩ := List.eq_append_cons_of_mem hquestion
    have hcount : r.uri.count question = rest.count question + 1 := by
      rw [huri, List.count_append, List.count_cons_self, List.count_eq_zero.mpr hpath, Nat.zero_add]
    rw [huri, parseParams_of_mem hsplit hpath, Prod.mk.injEq, Prod.mk.injEq] at htarget
    obtain ⟨hrpath, hrquery, hrparams⟩ := htarget
    rw [hcount]
    constructor
    · rintro ⟨-, hquery⟩
      obtain ⟨-, hwhole, -⟩ := hquery path rest huri hpath
      -- what was kept as query string has no `?` in it
      have hnot : question ∉ rest := by
        rw [← hwhole, ← hrquery]
        intro hmem
        simpa using List.mem_takeWhile_imp hmem
      rw [List.count_eq_zero.mpr hnot]
    · intro hone
      have hnot : question ∉ rest := List.count_eq_zero.mp (by omega)
      rw [untilQuestion_of_not_mem hnot] at hrquery hrparams
      refine ⟨fun hno => absurd hquestion hno, fun path' query huri' hpath' => ?_⟩
      -- a text has only one division at its first `?`
      have hcut := cut_append hpath' query
      rw [← huri', huri, cut_append hpath, Option.some.injEq, Prod.mk.injEq] at hcut
      obtain ⟨rfl, rfl⟩ := hcut
      refine ⟨hrpath.symm, hrquery.symm, ?_, hrparams.symm⟩
      rw [← hrpath, ← hrquery, huri]
  · rw [parseParams_of_not_mem hsplit hquestion, Prod.mk.injEq, Prod.mk.injEq] at htarget
    obtain ⟨hrpath, hrquery, hrparams⟩ := htarget
    refine iff_of_true ⟨fun _ => ⟨hrpath.symm, hrquery.symm, hrparams.symm⟩, ?_⟩ ?_
    · intro path query huri _
      exact absurd (huri ▸ by simp) hquestion
    · rw [List.count_eq_zero.mpr hquestion]
      exact Nat.zero_le 1

/-- A target with a query string of two parameters. -/
theorem splitsTarget_sample :
    ∃ r, parse .plain .zero (str "GET /a?x=1&y=2 HTTP/1.1\n\n") = .ok r ∧
      SplitsTarget .plain r.toRequestLine := by
  have huri : (parse .plain .zero (str "GET /a?x=1&y=2 HTTP/1.1\n\n")).map (·.uri) =
      .ok (str "/a?x=1&y=2") := by decide
  obtain ⟨r, hparse, huri⟩ := Run.exists_ok_of_map huri
  refine ⟨r, hparse, (splitsTarget_iff Mgz.plain_splitsPieces hparse).mpr ?_⟩
  rw [huri]
  decide

/-- What stands behind a second `?` is in neither part. -/
theorem splitsTarget_fails :
    ∃ r, parse .plain .zero (str "GET /a?x=1?y=2 HTTP/1.1\n\n") = .ok r ∧
      r.uri = str "/a?x=1?y=2" ∧ r.path = str "/a" ∧ r.queryString = str "x=1" ∧
      ¬SplitsTarget .plain r.toRequestLine := by
  have hparts : (parse .plain .zero (str "GET /a?x=1?y=2 HTTP/1.1\n\n")).map
      (fun r => (r.uri, r.path, r.queryString)) =
        .ok (str "/a?x=1?y=2", str "/a", str "x=1") := by decide
  obtain ⟨r, hparse, hparts⟩ := Run.exists_ok_of_map hparts
  simp only [Prod.mk.injEq] at hparts
  obtain ⟨huri, hpath, hquery⟩ := hparts
  refine ⟨r, hparse, huri, hpath, hquery, fun h => ?_⟩
  have hwhole := (h.query (str "/a") (str "x=1?y=2") (huri.trans rfl) (by decide)).2.1
  rw [hquery] at hwhole
  exact absurd hwhole (by decide)

/-! ## The parameters of a query string -/

section Params

variable (decode : Bytes → Bytes)

/-- The binding of one piece of a query string: the text before its first `=` to the text behind
that, or the whole piece to the empty string. -/
def bindingOf (piece : Bytes) : Bytes × Bytes :=
  match cut equals piece with
  | some (name, value) => (decode name, decode value)
  | none => (decode piece, [])

/-- The bindings of the pieces that are not empty. -/
def bindingsOf (pieces : List Bytes) : List (Bytes × Bytes) :=
  (pieces.filter (· ≠ [])).map (bindingOf decode)

/-- The parameters of a query string. -/
def paramsOf (query : Bytes) : Std.ExtTreeMap Bytes Bytes :=
  (bindingsOf decode (query.splitOn amp)).foldl (fun params b => params.insert b.1 b.2) ∅

/-- Every piece without a `=` is harmless: its name is bound again by a later piece, or the piece
decodes to the empty string, or it is empty and its name has already been bound to its value. -/
def HarmlessFlags (query : Bytes) : Prop :=
  ∀ before piece after, query.splitOn amp = before ++ piece :: after → equals ∉ piece →
    (∀ p ∈ after, (bindingOf decode p).1 ≠ decode piece) →
    if piece = [] then last? (decode []) (bindingsOf decode before) = some (decode [])
    else decode piece = []

/-- The binding the loop of `parse_params` makes of a piece. -/
def readBinding (piece : Bytes) : Bytes × Bytes :=
  (decode (upTo piece (find piece equals)), decode (after piece (find piece equals)))

variable {decode}

/-- A piece with a `=` is read as the binding it is. -/
theorem readBinding_of_mem {piece : Bytes} (h : equals ∈ piece) :
    readBinding decode piece = bindingOf decode piece := by
  obtain ⟨name, value, rfl, hname⟩ := List.eq_append_cons_of_mem h
  rw [readBinding, bindingOf, upTo_find hname, after_find hname, cut_append hname]

/-- Without a `=` the position `npos` is one less than 0: the name is the whole piece, and so is the
value. -/
theorem readBinding_of_not_mem {piece : Bytes} (h : equals ∉ piece) :
    readBinding decode piece = (decode piece, decode piece) := by
  rw [readBinding, find_eq_none_iff.mpr h]
  rfl

/-- A piece without a `=` binds the empty value. -/
theorem bindingOf_of_not_mem {piece : Bytes} (h : equals ∉ piece) :
    bindingOf decode piece = (decode piece, []) := by
  rw [bindingOf, cut_eq_none_iff.mpr h]

/-- The loop finds the right name in every piece. -/
theorem fst_readBinding (piece : Bytes) :
    (readBinding decode piece).1 = (bindingOf decode piece).1 := by
  by_cases h : equals ∈ piece
  · rw [readBinding_of_mem h]
  · rw [readBinding_of_not_mem h, bindingOf_of_not_mem h]

/-- The bindings of the pieces of a query, one after the other. -/
theorem bindingsOf_append (before after : List Bytes) :
    bindingsOf decode (before ++ after) = bindingsOf decode before ++ bindingsOf decode after := by
  rw [bindingsOf, List.filter_append, List.map_append]
  rfl

/-- Each piece that is not empty is a binding. -/
theorem bindingsOf_cons_of_ne_nil {piece : Bytes} (h : piece ≠ []) (after : List Bytes) :
    bindingsOf decode (piece :: after) = bindingOf decode piece :: bindingsOf decode after := by
  simp [bindingsOf, h]

@[simp] theorem bindingsOf_cons_nil (after : List Bytes) :
    bindingsOf decode ([] :: after) = bindingsOf decode after := by
  simp [bindingsOf]

/-- A name that no piece has is bound by none of them. -/
theorem last?_bindingsOf_of_ne {k : Bytes} {pieces : List Bytes}
    (h : ∀ p ∈ pieces, (bindingOf decode p).1 ≠ k) : last? k (bindingsOf decode pieces) = none := by
  rw [last?_eq_none_iff]
  intro b hb
  obtain ⟨p, hp, rfl⟩ := List.mem_map.mp hb
  exact h p (List.mem_of_mem_filter hp)

/-- What the loop and the fold make of the last piece with a given name. -/
theorem last?_of_split {k : Bytes} (before : List Bytes) {after : List Bytes} {piece : Bytes}
    (hk : (bindingOf decode piece).1 = k) (hafter : ∀ p ∈ after, (bindingOf decode p).1 ≠ k) :
    last? k ((before ++ piece :: after).map (readBinding decode)) =
        some (readBinding decode piece).2 ∧
      last? k (bindingsOf decode (before ++ piece :: after)) =
        if piece = [] then last? k (bindingsOf decode before)
        else some (bindingOf decode piece).2 := by
  constructor
  · rw [last?_eq_some_iff]
    refine ⟨before.map (readBinding decode), after.map (readBinding decode), ?_, ?_⟩
    · rw [List.map_append, List.map_cons, ← hk, ← fst_readBinding]
    · intro b hb
      obtain ⟨p, hp, rfl⟩ := List.mem_map.mp hb
      rw [fst_readBinding]
      exact hafter p hp
  · rw [bindingsOf_append, last?_append]
    split
    · rename_i hnil
      rw [hnil, bindingsOf_cons_nil, last?_bindingsOf_of_ne hafter]
      rfl
    · rename_i hne
      rw [bindingsOf_cons_of_ne_nil hne, last?_cons, last?_bindingsOf_of_ne hafter, if_pos hk]
      rfl

/-- A name that the loop binds is the name of some last piece. -/
theorem exists_split_of_last? {k v : Bytes} {pieces : List Bytes}
    (h : last? k (pieces.map (readBinding decode)) = some v) :
    ∃ before piece after, pieces = before ++ piece :: after ∧ (bindingOf decode piece).1 = k ∧
      ∀ p ∈ after, (bindingOf decode p).1 ≠ k := by
  obtain ⟨l, r, hsplit, hr⟩ := last?_eq_some_iff.mp h
  obtain ⟨before, tail, rfl, -, htail⟩ := List.map_eq_append_iff.mp hsplit
  obtain ⟨piece, after, rfl, hpiece, rfl⟩ := List.map_eq_cons_iff.mp htail
  refine ⟨before, piece, after, rfl, ?_, fun p hp => ?_⟩
  · rw [← fst_readBinding, hpiece]
  · rw [← fst_readBinding]
    exact hr _ (List.mem_map_of_mem hp)

/-- The loop binds the names as the fold over the pieces that are not empty does exactly when every
piece without a `=` is harmless. -/
theorem last?_eq_iff (query : Bytes) :
    (∀ k, last? k ((query.splitOn amp).map (readBinding decode)) =
        last? k (bindingsOf decode (query.splitOn amp))) ↔
      HarmlessFlags decode query := by
  constructor
  · intro h before piece after hpieces hequals hafter
    have hk : (bindingOf decode piece).1 = decode piece := by
      rw [bindingOf_of_not_mem hequals]
    obtain ⟨hread, hfold⟩ := last?_of_split before hk hafter
    have heq := h (decode piece)
    rw [hpieces, hread, hfold, readBinding_of_not_mem hequals, bindingOf_of_not_mem hequals] at heq
    split at heq
    · rename_i hnil
      subst hnil
      rw [if_pos rfl]
      exact heq.symm
    · rename_i hne
      rw [if_neg hne]
      exact Option.some.inj heq
  · intro h k
    rcases hlast : last? k ((query.splitOn amp).map (readBinding decode)) with _ | v
    -- no piece has this name
    · rw [last?_eq_none_iff] at hlast
      refine (last?_bindingsOf_of_ne fun p hp => ?_).symm
      rw [← fst_readBinding]
      exact hlast _ (List.mem_map_of_mem hp)
    -- the last piece with this name decides, on both sides
    · obtain ⟨before, piece, after, hpieces, hk, hafter⟩ := exists_split_of_last? hlast
      obtain ⟨hread, hfold⟩ := last?_of_split before hk hafter
      rw [← hlast, hpieces, hread, hfold]
      by_cases hequals : equals ∈ piece
      · rw [if_neg (List.ne_nil_of_mem hequals), readBinding_of_mem hequals]
      · rw [bindingOf_of_not_mem hequals] at hk ⊢
        have hflag := h before piece after hpieces hequals (by simpa only [← hk] using hafter)
        rw [readBinding_of_not_mem hequals]
        split at hflag
        · rename_i hnil
          rw [if_pos hnil, ← hk, hnil, hflag]
        · rename_i hne
          rw [if_neg hne, hflag]

end Params

/-- The last binding of a name counts. -/
theorem getElem?_foldl_insert (bs : List (Bytes × Bytes)) (params : Std.ExtTreeMap Bytes Bytes)
    (k : Bytes) :
    (bs.foldl (fun params b => params.insert b.1 b.2) params)[k]? =
      (last? k bs).or params[k]? := by
  refine get_foldl (fun (t : Std.ExtTreeMap Bytes Bytes) k => t[k]?) (fun t k v => t.insert k v)
    (fun t k v k' => ?_) bs params k
  simp only [Std.ExtTreeMap.getElem?_insert, Std.LawfulEqCmp.compare_eq_iff_eq]

/-- That is what the parser reads from a query. -/
theorem getElem?_readParams (mgz : Mgz) (query k : Bytes) :
    (readParams mgz query)[k]? =
      last? k ((mgz.split query amp).map (readBinding mgz.decode)) := by
  have hfold : readParams mgz query =
      ((mgz.split query amp).map (readBinding mgz.decode)).foldl
        (fun params b => params.insert b.1 b.2) ∅ := by
    rw [List.foldl_map]
    rfl
  rw [hfold, getElem?_foldl_insert]
  simp

/-- And it is what the query says. -/
theorem getElem?_paramsOf (decode : Bytes → Bytes) (query k : Bytes) :
    (paramsOf decode query)[k]? = last? k (bindingsOf decode (query.splitOn amp)) := by
  rw [paramsOf, getElem?_foldl_insert]
  simp

/-- The parameters of a target are those of its query string exactly when every piece of that
without a `=` is harmless; a target without a query string has none. -/
theorem params_eq_iff {mgz : Mgz} (hsplit : mgz.SplitsPieces) (uri : Bytes) :
    (parseParams mgz uri).2.2 = paramsOf mgz.decode (parseParams mgz uri).2.1 ↔
      ∀ query, queryOf uri = some query → HarmlessFlags mgz.decode query := by
  by_cases hquestion : question ∈ uri
  · obtain ⟨path, rest, rfl, hpath⟩ := List.eq_append_cons_of_mem hquestion
    rw [parseParams_of_mem hsplit hpath, queryOf_append hpath]
    simp only [Option.some.injEq, forall_eq']
    rw [← last?_eq_iff]
    constructor
    · intro heq k
      rw [← hsplit, ← getElem?_readParams, heq, getElem?_paramsOf, hsplit]
    · intro h
      apply Std.ExtTreeMap.ext_getElem?
      intro k
      rw [getElem?_readParams, getElem?_paramsOf, hsplit]
      exact h k
  · rw [parseParams_of_not_mem hsplit hquestion, queryOf_of_not_mem hquestion]
    exact iff_of_true rfl nofun

/-- A query string in which every piece has a `=`. -/
theorem params_eq_sample :
    (parseParams .plain (str "/a?x=1&y=&x=2=3")).2.2 =
      paramsOf Mgz.plain.decode (str "x=1&y=&x=2=3") := by
  refine (params_eq_iff Mgz.plain_splitsPieces (str "/a?x=1&y=&x=2=3")).mpr ?_
  rintro query ⟨⟩ before piece after hpieces hequals
  have hall : ∀ p ∈ (str "x=1&y=&x=2=3").splitOn amp, equals ∈ p := by decide
  have hquery : untilQuestion (str "x=1&y=&x=2=3") = str "x=1&y=&x=2=3" := by decide
  have hmem : piece ∈ (str "x=1&y=&x=2=3").splitOn amp := by
    rw [← hquery]
    exact hpieces ▸ by simp
  exact absurd (hall piece hmem) hequals

/-- A piece without a `=` is bound to itself and not to the empty string, and an empty piece is
bound too. -/
theorem params_eq_fails :
    ((parseParams .plain (str "/?a")).2.2[str "a"]? = some (str "a") ∧
        (paramsOf Mgz.plain.decode (str "a"))[str "a"]? = some []) ∧
      ((parseParams .plain (str "/?x=1&")).2.2[str ""]? = some (str "") ∧
        (paramsOf Mgz.plain.decode (str "x=1&"))[str ""]? = none) ∧
      (parseParams .plain (str "/?a")).2.2 ≠ paramsOf Mgz.plain.decode (str "a") ∧
      (parseParams .plain (str "/?x=1&")).2.2 ≠ paramsOf Mgz.plain.decode (str "x=1&") := by
  have hflag : (parseParams .plain (str "/?a")).2.2[str "a"]? = some (str "a") := by decide
  have hflag' : (paramsOf Mgz.plain.decode (str "a"))[str "a"]? = some [] := by decide
  have hempty : (parseParams .plain (str "/?x=1&")).2.2[str ""]? = some (str "") := by decide
  have hempty' : (paramsOf Mgz.plain.decode (str "x=1&"))[str ""]? = none := by decide
  refine ⟨⟨hflag, hflag'⟩, ⟨hempty, hempty'⟩, fun heq => ?_, fun heq => ?_⟩
  · rw [heq, hflag'] at hflag
    exact absurd hflag (by decide)
  · rw [heq, hempty'] at hempty
    cases hempty

end Lhs.Http.Request
