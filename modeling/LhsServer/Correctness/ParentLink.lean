import LhsServer.Correctness.Index

/-!
# The link to the parent directory

The index of a directory has a link to `..`, unless the directory is the root. Its target is the
path of the request, without one `/` at its end, up to the last `/` in it. Whether a component is
cut off by that depends on what stands behind that `/`.

- `components`: a path or a target, normalised;
- `CutsLast`: the cut takes away the last component and nothing else;
- `ParentLinked`: the link to `..` leads to the parent directory, and no link of the index of the
  root leads out of it;
- `parentLinked_iff`: when that is so.
-/

namespace Lhs.Middleware.StaticFile

open Bytes Http

/-! ## Components -/

/-- The components of a path: its pieces between separators, but for empty ones and `.`. -/
def components (path : Bytes) : List Bytes := LexPath.proper dot (path.splitOn slash)

/-- A piece that is no component. -/
def Dropped (piece : Bytes) : Prop := piece = [] ∨ piece = [dot]

instance (piece : Bytes) : Decidable (Dropped piece) := inferInstanceAs (Decidable (_ ∨ _))

/-- The first piece of a path comes first, unless it is dropped. -/
theorem proper_cons (piece : Bytes) (pieces : List Bytes) :
    LexPath.proper dot (piece :: pieces) =
      (if Dropped piece then [] else [piece]) ++ LexPath.proper dot pieces := by
  rw [LexPath.proper, List.filter_cons, LexPath.proper]
  by_cases h : Dropped piece
  · rw [if_pos h, if_neg (by simpa [Dropped, or_iff_not_imp_left] using h), List.nil_append]
  · rw [if_neg h, if_pos (by simpa [Dropped] using h), List.singleton_append]

theorem proper_eq_nil_iff {pieces : List Bytes} :
    LexPath.proper dot pieces = [] ↔ ∀ piece ∈ pieces, Dropped piece := by
  induction pieces with
  | nil => simp [LexPath.proper]
  | cons piece pieces ih =>
    rw [proper_cons, List.append_eq_nil_iff, ih, List.forall_mem_cons]
    by_cases h : Dropped piece <;> simp [h]

/-- A text without a slash is at most one component. -/
theorem components_of_not_mem {piece : Bytes} (h : slash ∉ piece) :
    components piece = if Dropped piece then [] else [piece] := by
  rw [components, List.splitOn_eq_singleton h, proper_cons]
  simp [LexPath.proper]

/-- The components of two paths one after the other. -/
theorem components_append (a b : Bytes) :
    components (a ++ slash :: b) = components a ++ components b := by
  rw [components, List.splitOn_append_cons_self, LexPath.proper, List.filter_append]
  rfl

/-- One `/` at the end of the path of a request adds no component. -/
theorem components_trimmedPath (request : Request) :
    components (trimmedPath request) = components request.path := by
  rw [trimmedPath]
  split
  · rename_i h
    obtain ⟨t, ht⟩ := List.getLast?_eq_some_iff.mp h
    rw [ht, List.dropLast_concat, components_append]
    simp [components, LexPath.proper]
  · rfl

/-- A path without components consists of `/` and `.`. -/
theorem nul_not_mem_of_components_eq_nil {path : Bytes} (h : components path = []) :
    NUL ∉ path := by
  intro hmem
  have hjoin : [slash].intercalate (path.splitOn slash) = path := List.intercalate_splitOn slash
  rw [← hjoin] at hmem
  rcases mem_intercalate hmem with heq | ⟨piece, hpiece, hnul⟩
  · exact absurd heq (by decide)
  · rcases proper_eq_nil_iff.mp h piece hpiece with rfl | rfl
    · cases hnul
    · exact absurd hnul (by decide)

/-! ## The cut -/

/-- Of the pieces of a path, the last one is a component, and no NUL stands in front of it. With a
NUL in front of it, what is cut off from there on is just one component. -/
def CutsLast : List Bytes → Prop
  | [] => False
  | [last] => ¬Dropped last
  | piece :: next :: rest =>
    if NUL ∈ piece then Dropped (cstr piece) ∧ ∀ c ∈ next :: rest, Dropped c
    else CutsLast (next :: rest)

instance decidableCutsLast : (pieces : List Bytes) → Decidable (CutsLast pieces)
  | [] => inferInstanceAs (Decidable False)
  | [last] => inferInstanceAs (Decidable (¬Dropped last))
  | piece :: next :: rest =>
    have := decidableCutsLast (next :: rest)
    inferInstanceAs (Decidable (if NUL ∈ piece then _ ∧ _ else _))

/-- The cut is in the first piece, or behind it. -/
theorem cutsLast_cons (piece : Bytes) {rest : List Bytes} (hne : rest ≠ []) :
    CutsLast (piece :: rest) ↔
      if NUL ∈ piece then Dropped (cstr piece) ∧ ∀ c ∈ rest, Dropped c else CutsLast rest := by
  obtain ⟨next, rest, rfl⟩ := List.exists_cons_of_ne_nil hne
  rfl

/-- A piece with a NUL in it is a component. -/
theorem not_dropped_of_nul_mem {piece : Bytes} (h : NUL ∈ piece) : ¬Dropped piece := by
  rintro (rfl | rfl)
  · cases h
  · exact absurd h (by decide)

/-- What is cut in its last component has one. -/
theorem proper_ne_nil_of_cutsLast {pieces : List Bytes} (h : CutsLast pieces) :
    LexPath.proper dot pieces ≠ [] := by
  induction pieces with
  | nil => exact False.elim h
  | cons piece rest ih =>
    rw [proper_cons]
    rcases eq_or_ne rest [] with rfl | hne
    · rw [if_neg h]
      simp
    · rw [cutsLast_cons piece hne] at h
      split at h
      · rename_i hnul
        rw [if_neg (not_dropped_of_nul_mem hnul)]
        simp
      · simp [ih h]

/-- The components of joined pieces, with the cut at the first NUL. -/
theorem components_cstr_cons {piece : Bytes} (hslash : slash ∉ piece) (rest : List Bytes) :
    components (cstr ([slash].intercalate (piece :: rest))) =
      if NUL ∈ piece then (if Dropped (cstr piece) then [] else [cstr piece])
      else (if Dropped piece then [] else [piece]) ++
        components (cstr ([slash].intercalate rest)) := by
  split
  · rename_i hnul
    have hcut : cstr ([slash].intercalate (piece :: rest)) = cstr piece := by
      cases rest with
      | nil => simp
      | cons next rest =>
        rw [List.intercalate_cons_cons, List.append_assoc, cstr_append_of_nul_mem hnul]
    rw [hcut, components_of_not_mem fun h => hslash ((cstr_isPrefixOf piece).mem h)]
  · rename_i hnul
    cases rest with
    | nil =>
      have hempty : components (cstr ([slash].intercalate [])) = [] := by decide
      rw [hempty, List.intercalate_singleton, cstr_of_nul_not_mem hnul,
        components_of_not_mem hslash, List.append_nil]
    | cons next rest =>
      have hcut : ∀ s, cstr (slash :: s) = slash :: cstr s := fun s => rfl
      rw [List.intercalate_cons_cons, List.append_assoc, List.singleton_append,
        cstr_append_of_nul_not_mem hnul, hcut, components_append, components_of_not_mem hslash]

/-- What is left in front of the last piece has all components but the last. -/
theorem components_front_iff {front : List Bytes} (hslash : ∀ piece ∈ front, slash ∉ piece)
    {last : Bytes} (hne : LexPath.proper dot (front ++ [last]) ≠ []) :
    components (cstr ([slash].intercalate front)) =
        (LexPath.proper dot (front ++ [last])).dropLast ↔
      CutsLast (front ++ [last]) := by
  induction front with
  | nil =>
    have hlast : ¬Dropped last := fun h => hne (proper_eq_nil_iff.mpr (by simpa using h))
    refine iff_of_true ?_ hlast
    have hproper : LexPath.proper dot [last] = [last] := by
      rw [proper_cons, if_neg hlast]
      rfl
    rw [List.nil_append, hproper, List.dropLast_singleton]
    decide
  | cons piece front ih =>
    obtain ⟨hpiece, hfront⟩ := List.forall_mem_cons.mp hslash
    rw [List.cons_append, cutsLast_cons piece (by simp), components_cstr_cons hpiece]
    rw [List.cons_append] at hne
    rw [proper_cons] at hne ⊢
    by_cases hnul : NUL ∈ piece
    -- nothing of what follows the NUL is left in the target
    · rw [if_pos hnul, if_pos hnul, if_neg (not_dropped_of_nul_mem hnul), List.singleton_append,
        ← proper_eq_nil_iff]
      by_cases hrest : LexPath.proper dot (front ++ [last]) = []
      · rw [hrest, List.dropLast_singleton]
        by_cases hcut : Dropped (cstr piece) <;> simp [hcut]
      · refine iff_of_false (fun heq => ?_) fun h => hrest h.2
        rw [List.dropLast_cons_of_ne_nil hrest] at heq
        split at heq
        · cases heq
        · have hcut : cstr piece = piece := (List.cons.inj heq).1
          exact nul_not_mem_cstr piece (hcut.symm ▸ hnul)
    · rw [if_neg hnul, if_neg hnul]
      by_cases hrest : LexPath.proper dot (front ++ [last]) = []
      -- `piece` is the last component, and is not cut off
      · refine iff_of_false (fun heq => ?_) fun h => proper_ne_nil_of_cutsLast h hrest
        rw [hrest, List.append_nil] at heq hne
        have hpiece : ¬Dropped piece := fun h => hne (if_pos h)
        rw [if_neg hpiece] at heq
        cases heq
      · rw [List.dropLast_append_of_ne_nil hrest, List.append_cancel_left_eq, ih hfront hrest]

/-- The target of the link has all components of the path but the last. -/
theorem components_parentTarget_iff {request : Request} (h : components request.path ≠ []) :
    components (cstr (parentTarget (trimmedPath request))) =
        (components request.path).dropLast ↔
      CutsLast ((trimmedPath request).splitOn slash) := by
  rw [← components_trimmedPath] at h ⊢
  have hpath : trimmedPath request ≠ [] := by
    intro hpath
    rw [hpath] at h
    exact h (by decide)
  obtain ⟨front, last, hfront, hlast⟩ := exists_trimmedPath_eq hpath
  have htarget : components (cstr (parentTarget (front ++ slash :: last))) =
      components (cstr ([slash].intercalate (front.splitOn slash))) := by
    rw [parentTarget_append front hlast, List.intercalate_splitOn]
    split
    · rename_i hnil
      rw [hnil]
      decide
    · rfl
  have hpieces : (trimmedPath request).splitOn slash = front.splitOn slash ++ [last] := by
    rw [hfront, List.splitOn_append_cons_self, List.splitOn_eq_singleton hlast]
  rw [components, hpieces] at h
  rw [components.eq_1 (trimmedPath request), hpieces, hfront, htarget]
  apply components_front_iff _ h
  intro piece hpiece hmem
  exact (Lines.mem_of_mem_splitOn hpiece hmem).2 rfl

/-! ## The links of an index -/

/-- The target of a link is an absolute path without a component `..`. -/
def Inside (target : Bytes) : Prop :=
  target.head? = some slash ∧ str ".." ∉ components target

/-- Unless the path of the request has no components, a link called `..` leads to the directory with
all of them but the last; if it has none, every link stays inside of the root. -/
def ParentLinked (request : Request) (rows : List IndexRow) : Prop :=
  (components request.path ≠ [] →
    ∃ row ∈ rows, row.name = str ".." ∧
      components row.target = (components request.path).dropLast) ∧
  (components request.path = [] → ∀ row ∈ rows, Inside row.target)

variable (layer : StaticFile) (mgz : Mgz) (mem : Memory) (fs : FileSystem)

/-- The row of an entry is not called `..`. -/
theorem name_rowOf_ne {file : Bytes} {entry : EntryName} (h : isListed entry) :
    (layer.rowOf mgz mem fs file entry).name ≠ str ".." := by
  have hname : (layer.rowOf mgz mem fs file entry).name = entry.1 :=
    cstr_of_nul_not_mem entry.2.2.2
  rw [hname]
  exact (of_decide_eq_true h).2

/-- The only row called `..` is that of the parent directory. -/
theorem exists_parentRow_iff {request : Request} (entries : List EntryName)
    (h : trimmedPath request ≠ []) (P : Bytes → Prop) :
    (∃ row ∈ layer.rows mgz mem fs request entries, row.name = str ".." ∧ P row.target) ↔
      P (cstr (parentTarget (trimmedPath request))) := by
  rw [rows, parentRows, if_neg h]
  constructor
  · rintro ⟨row, hrow, hname, htarget⟩
    rcases List.mem_append.mp hrow with hrow | hrow
    · rw [List.mem_singleton.mp hrow] at htarget
      exact htarget
    · obtain ⟨entry, hentry, rfl⟩ := List.mem_map.mp hrow
      exact absurd hname (layer.name_rowOf_ne mgz mem fs (List.mem_filter.mp hentry).2)
  · intro htarget
    exact ⟨_, List.mem_append_left _ (List.mem_singleton_self _), rfl, htarget⟩

/-- A target without components stands for the root. -/
theorem inside_of_components_eq_nil {target : Bytes} (hhead : target.head? = some slash)
    (h : components target = []) : Inside target := by
  rw [Inside, h]
  exact ⟨hhead, List.not_mem_nil⟩

/-- The parent of the root is the root. -/
theorem inside_parentTarget {request : Request} (h : components request.path = [])
    (hpath : trimmedPath request ≠ []) :
    Inside (cstr (parentTarget (trimmedPath request))) := by
  obtain ⟨front, last, hfront, hlast⟩ := exists_trimmedPath_eq hpath
  rw [← components_trimmedPath, hfront, components_append, List.append_eq_nil_iff] at h
  rw [hfront, parentTarget_append front hlast]
  split
  · exact inside_of_components_eq_nil rfl (by decide)
  · rename_i hne
    rw [cstr_of_nul_not_mem (nul_not_mem_of_components_eq_nil h.1)]
    have hhead := head?_trimmedPath_append request []
    rw [hfront, List.append_assoc, List.head?_append_of_ne_nil _ hne] at hhead
    exact inside_of_components_eq_nil hhead h.1

/-- The entries of the root are below it. -/
theorem inside_hrefOf {request : Request} (h : components request.path = []) {entry : EntryName}
    (hlisted : isListed entry) : Inside (layer.hrefOf (layer.filenameOf request) entry) := by
  rw [← components_trimmedPath] at h
  obtain ⟨-, hslash, hnul⟩ := entry.2
  have htarget : NUL ∉ trimmedPath request ++ slash :: entry.1 := by
    simp [nul_not_mem_of_components_eq_nil h, hnul, show NUL ≠ slash by decide]
  rw [hrefOf_filenameOf, cstr_of_nul_not_mem htarget]
  refine ⟨head?_trimmedPath_append request entry.1, ?_⟩
  rw [components_append, h, List.nil_append, components_of_not_mem hslash]
  split
  · exact List.not_mem_nil
  · rw [List.mem_singleton]
    exact Ne.symm (of_decide_eq_true hlisted).2

/-- The index of a directory that is opened consists of its rows. The link to the parent directory
is right exactly when the path of the request has no components, or the cut takes away its last
one. -/
theorem parentLinked_iff {request : Request} {entries : List EntryName}
    (h : fs.opendir (cstr (layer.filenameOf request)) = some entries) :
    (layer.getDirectoryContent mgz mem (layer.filenameOf request)).value fs =
        .ok (mgz.format indexHeader
            [.s (cstr (trimmedPath request)), .s (cstr (trimmedPath request))] ++
          (layer.rows mgz mem fs request entries).flatMap (IndexRow.text mgz) ++ indexFooter) ∧
      (ParentLinked request (layer.rows mgz mem fs request entries) ↔
        (components request.path ≠ [] → CutsLast ((trimmedPath request).splitOn slash))) := by
  refine ⟨layer.value_getDirectoryContent_rows mgz mem fs h, ?_⟩
  by_cases hnil : components request.path = []
  · refine iff_of_true ⟨fun hne => absurd hnil hne, fun _ row hrow => ?_⟩ fun hne =>
      absurd hnil hne
    rcases List.mem_append.mp hrow with hrow | hrow
    · rw [parentRows] at hrow
      split at hrow
      · cases hrow
      · rename_i hpath
        rw [List.mem_singleton.mp hrow]
        exact inside_parentTarget hnil hpath
    · obtain ⟨entry, hentry, rfl⟩ := List.mem_map.mp hrow
      exact layer.inside_hrefOf hnil (List.mem_filter.mp hentry).2
  · have hpath : trimmedPath request ≠ [] := by
      intro hpath
      rw [← components_trimmedPath, hpath] at hnil
      exact hnil (by decide)
    rw [ParentLinked, exists_parentRow_iff _ _ _ _ _ hpath
      (fun target => components target = (components request.path).dropLast),
      components_parentTarget_iff hnil]
    simp [hnil]

/-- A directory without entries, and nothing else. -/
def emptyDirectory (name : Bytes) : FileSystem where
  access path := path = name
  stat path := if path = name then some ⟨0o040755, 4096, 0⟩ else none
  ifstream _ := none
  opendir path := if path = name then some [] else none

theorem parentLinked_sample :
    ParentLinked (.get (str "/a/b/") rfl) (exploring.rows .plain .zero
      (emptyDirectory (str "www/a/b")) (.get (str "/a/b/") rfl) []) :=
  (parentLinked_iff exploring .plain .zero (emptyDirectory (str "www/a/b")) rfl).2.mpr
    fun _ => by decide

/-- The link to the parent directory of `/a//` leads to that directory itself. -/
theorem parentLinked_fails :
    isDirectoryAt (emptyDirectory (str "www/a/")) (exploring.filenameOf (.get (str "/a//") rfl)) =
        true ∧
      components (str "/a//") = [str "a"] ∧
      (exploring.rows .plain .zero (emptyDirectory (str "www/a/")) (.get (str "/a//") rfl) []).map
        (fun row => (row.name, row.target)) = [(str "..", str "/a")] ∧
      ¬ParentLinked (.get (str "/a//") rfl) (exploring.rows .plain .zero
        (emptyDirectory (str "www/a/")) (.get (str "/a//") rfl) []) := by
  have hrows : (exploring.rows .plain .zero (emptyDirectory (str "www/a/"))
      (.get (str "/a//") rfl) []).map (fun row => (row.name, row.target)) =
      [(str "..", str "/a")] := by decide
  refine ⟨by decide, by decide, hrows, fun h => ?_⟩
  obtain ⟨row, hrow, -, htarget⟩ := h.1 (by decide)
  have hmem := List.mem_map_of_mem (f := fun row : IndexRow => (row.name, row.target)) hrow
  rw [hrows, List.mem_singleton, Prod.mk.injEq] at hmem
  rw [hmem.2] at htarget
  exact absurd htarget (by decide)

end Lhs.Middleware.StaticFile
