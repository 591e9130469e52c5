import LhsServer.Correctness.Links

/-!
# The rows of a directory index

The index of a directory as the sequence of its rows: one for the parent directory, unless the
directory is the root, and one for each entry that is listed.

- `IndexRow`, `rows`: what the rows of the index of a request say;
- `parentTarget_append`: the target of the link to the parent directory;
- `value_getDirectoryContent_rows`: the index is its title, the texts of the rows and the footer.
-/

namespace Lhs.Middleware.StaticFile

open Bytes Http

/-- What a row of the index says. -/
structure IndexRow where
  image : Bytes
  target : Bytes
  name : Bytes
  date : Bytes
  size : Bytes

/-- A row as it is written. -/
def IndexRow.text (mgz : Mgz) (row : IndexRow) : Bytes :=
  mgz.format indexFile [.s row.image, .s row.target, .s row.name, .s row.date, .s row.size]

/-- The entry has a row. -/
def isListed (entry : EntryName) : Bool := entry.1 ≠ str "." ∧ entry.1 ≠ str ".."

/-- What stands in front of the last separator of a path that has one, and `/` where that is
nothing. -/
def parentTarget (path : Bytes) : Bytes :=
  match findLast path fileSeparator with
  | some (found + 1) => path.take (found + 1)
  | some 0 => str "/"
  | none => str "/"

variable (layer : StaticFile) (mgz : Mgz) (mem : Memory) (fs : FileSystem)

/-- The row of an entry that is listed. -/
def rowOf (file : Bytes) (entry : EntryName) : IndexRow :=
  let status := (fs.stat (cstr (sysFile file entry))).getD (mem.status (sysFile file entry))
  let isDir := isDirectoryAt fs (sysFile file entry)
  { image := cstr (if isDir then folderImage else fileImage)
    target := layer.hrefOf file entry
    name := cstr entry.1
    date := Calendar.strftime
      ((mem.tm (sysFile file entry)).getD (Calendar.gmtime status.stMtime))
    size :=
      cstr (if isDir then str "-" else mgz.format (str "%.1fk") [.kilobytes status.stSize]) }

/-- The row of the parent directory, unless the path is that of the root. -/
def parentRows (request : Request) : List IndexRow :=
  if trimmedPath request = [] then []
  else
    [{ image := folderImage
       target := cstr (parentTarget (trimmedPath request))
       name := str ".."
       date := str "-"
       size := str "-" }]

/-- The rows of the index of a request whose directory has these entries. -/
def rows (request : Request) (entries : List EntryName) : List IndexRow :=
  parentRows request ++
    (entries.filter isListed).map (layer.rowOf mgz mem fs (layer.filenameOf request))

/-! ## The link to the parent directory -/

theorem parentTarget_append (front : Bytes) {last : Bytes} (h : slash ∉ last) :
    parentTarget (front ++ slash :: last) = if front = [] then str "/" else front := by
  have hfound : findLast (front ++ slash :: last) fileSeparator = some front.length := by
    have hreverse : slash ∉ last.reverse := by simpa using h
    rw [findLast, List.reverse_append, List.reverse_cons, List.append_assoc,
      List.singleton_append, fileSeparator, find_append_cons hreverse]
    simp
  rw [parentTarget, hfound]
  cases front with
  | nil => rfl
  | cons c front =>
    rw [if_neg (List.cons_ne_nil _ _)]
    show (c :: front ++ slash :: last).take (c :: front).length = c :: front
    exact List.take_left

/-- The link to the parent directory can be made for a path with a separator. -/
theorem parentOf_of_mem {path : Bytes} (h : slash ∈ path) :
    parentOf path = .ok (parentTarget path) := by
  rw [parentOf, parentTarget]
  rcases hfound : findLast path fileSeparator with _ | _ | found
  · exact absurd hfound (by simp [findLast, fileSeparator, find_eq_none_iff, h])
  · rfl
  · exact congrArg Except.ok (replace_slash _)

/-- The last separator of a path that is not that of the root. -/
theorem exists_trimmedPath_eq {request : Request} (h : trimmedPath request ≠ []) :
    ∃ front last, trimmedPath request = front ++ slash :: last ∧ slash ∉ last := by
  have hmem : slash ∈ trimmedPath request := by
    obtain ⟨c, t, ht⟩ := List.exists_cons_of_ne_nil h
    have hhead := head?_trimmedPath_append request []
    rw [ht, List.cons_append, List.head?_cons, Option.some.injEq] at hhead
    rw [ht, hhead]
    exact List.mem_cons_self
  obtain ⟨l, r, hreverse, hl⟩ := List.eq_append_cons_of_mem (List.mem_reverse.mpr hmem)
  refine ⟨r.reverse, l.reverse, ?_, by simpa using hl⟩
  have heq := congrArg List.reverse hreverse
  rw [List.reverse_reverse] at heq
  rw [heq]
  simp

/-! ## The index -/

theorem drop_filenameOf (request : Request) :
    (layer.filenameOf request).drop layer.root.length = trimmedPath request := by
  rw [filenameOf_eq, List.drop_left]

theorem filenameOf_ne_root_iff (request : Request) :
    layer.filenameOf request ≠ layer.root ↔ trimmedPath request ≠ [] := by
  rw [filenameOf_eq]
  simp

/-- The head of the index: the title and the row of the parent directory. -/
theorem indexHead_filenameOf (request : Request) :
    layer.indexHead mgz (layer.filenameOf request) =
      .ok (mgz.format indexHeader [.s (cstr (trimmedPath request)), .s (cstr (trimmedPath request))]
        ++ (parentRows request).flatMap (IndexRow.text mgz)) := by
  rw [indexHead, drop_filenameOf]
  simp only [filenameOf_ne_root_iff]
  by_cases h : trimmedPath request = []
  · rw [if_neg (not_not.mpr h), parentRows, if_pos h, List.flatMap_nil, List.append_nil]
    rfl
  · obtain ⟨front, last, hpath, hlast⟩ := exists_trimmedPath_eq h
    have hmem : slash ∈ trimmedPath request := by simp [hpath]
    rw [if_pos h, parentRows, if_neg h, parentOf_of_mem hmem, List.flatMap_singleton]
    rfl

theorem entryRow_eq (file : Bytes) (entry : EntryName) :
    layer.entryRow mgz mem fs file entry =
      if isListed entry then (layer.rowOf mgz mem fs file entry).text mgz else [] := by
  by_cases h : entry.1 = str "." ∨ entry.1 = str ".."
  · have hlisted : isListed entry = false := by
      rcases h with h | h <;> simp [isListed, h]
    rw [entryRow, if_pos h, if_neg (by simp [hlisted])]
  · have hlisted : isListed entry = true := by
      simpa [isListed] using not_or.mp h
    rw [entryRow, if_neg h, if_pos hlisted]
    simp only [rowOf, IndexRow.text, hrefOf, sysFile]
    rcases Bool.eq_false_or_eq_true (isDirectoryAt fs (file ++ fileSeparator :: entry.1)) with
      hdir | hdir
    · simp only [hdir, if_true]
    · simp only [hdir, Bool.false_eq_true, if_false]

/-- The rows that the loop over the entries adds. -/
theorem flatMap_entryRow (file : Bytes) (entries : List EntryName) :
    entries.flatMap (layer.entryRow mgz mem fs file) =
      ((entries.filter isListed).map (layer.rowOf mgz mem fs file)).flatMap
        (IndexRow.text mgz) := by
  induction entries with
  | nil => rfl
  | cons entry entries ih =>
    rw [List.flatMap_cons, ih, entryRow_eq, List.filter_cons]
    split
    · rw [List.map_cons, List.flatMap_cons]
    · rw [List.nil_append]

/-- The index is its title, the texts of its rows and the footer. -/
theorem value_getDirectoryContent_rows {request : Request} {entries : List EntryName}
    (h : fs.opendir (cstr (layer.filenameOf request)) = some entries) :
    (layer.getDirectoryContent mgz mem (layer.filenameOf request)).value fs =
      .ok (mgz.format indexHeader [.s (cstr (trimmedPath request)), .s (cstr (trimmedPath request))]
        ++ (layer.rows mgz mem fs request entries).flatMap (IndexRow.text mgz) ++ indexFooter) := by
  rw [value_getDirectoryContent _ _ _ _ (layer.indexHead_filenameOf mgz request), h]
  simp only [flatMap_entryRow, rows, List.flatMap_append, List.append_assoc]

end Lhs.Middleware.StaticFile
