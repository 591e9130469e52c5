import LhsServer.Correctness.Confinement

/-!
# What a static file layer serves

The answers to `static_file`'s questions in a file system that does not change, and with them what
the layer makes of the response of its inner middleware.

- `readBlocks_eq`: the block loop returns the whole stream;
- `value_getDirectoryContent`: an index consists of its head, one row for each entry and the footer;
- `Resolves`, `page`: when the layer has something to serve for a request, and what;
- `value_staticFile`: the layer serves its page in place of a response with code 0 or 404, and
  otherwise hands on the response it was given.
-/

namespace Lhs.Middleware

open Bytes Http

namespace StaticFile

/-! ## Files -/

/-- The block loop returns what it has read before and the whole stream. -/
theorem readBlocks_eq (stream buffer : Bytes) :
    readBlocks stream buffer = .ok (buffer ++ stream) := by
  induction stream, buffer using readBlocks.induct with
  -- the number of bytes read is never negative
  | case1 stream buffer block readSize hneg =>
    exact absurd hneg (by simp [readSize])
  -- nothing was left
  | case2 stream buffer block readSize hneg hempty =>
    have hlength : (stream.take blockSize).length = 0 := Int.ofNat_eq_zero.mp hempty
    have hstream : stream = [] := by simpa [blockSize] using hlength
    rw [readBlocks, if_neg hneg, if_pos hempty, hstream, List.append_nil]
  -- the last block holds all that was left
  | case3 stream buffer block readSize hneg hempty hshort =>
    have hlt : (stream.take blockSize).length < blockSize := Int.ofNat_lt.mp hshort
    have hlength : stream.length ≤ blockSize := by
      rw [List.length_take] at hlt
      omega
    rw [readBlocks, if_neg hneg, if_neg hempty, if_pos hshort, List.take_of_length_le hlength]
  -- a full block, and the loop goes on behind it
  | case4 stream buffer block readSize hneg hempty hshort ih =>
    rw [readBlocks, if_neg hneg, if_neg hempty, if_neg hshort, ih, List.append_assoc,
      List.take_append_drop]

@[simp] theorem value_getFileContent (file : Bytes) (fs : FileSystem) :
    (getFileContent file).value fs = .ok ((fs.ifstream (cstr file)).getD []) := by
  rw [getFileContent, Traced.value_bind, OS.value_ifstream, Traced.ok_bind, Traced.value_lift,
    readBlocks_eq, List.nil_append]

/-! ## Existence -/

/-- What `exist` answers. -/
def existsAt (fs : FileSystem) (filename : Bytes) : Bool :=
  decide (¬str ".." <:+: filename) && (decide (filename ≠ []) && fs.access (cstr filename))

/-- What `is_directory` answers. -/
def isDirectoryAt (fs : FileSystem) (filename : Bytes) : Bool :=
  match fs.stat (cstr filename) with
  | none => false
  | some status => existsAt fs filename && isDirMode status

@[simp] theorem value_exist (filename : Bytes) (fs : FileSystem) :
    (exist filename).value fs = .ok (existsAt fs filename) := by
  by_cases hparent : str ".." <:+: filename
  · simp [exist, existsAt, hparent]
  · by_cases hnil : filename = []
    · simp [exist, existsAt, hnil]
    · simp [exist, existsAt, hparent, hnil]

@[simp] theorem value_isDirectory (filename : Bytes) (fs : FileSystem) :
    (isDirectory filename).value fs = .ok (isDirectoryAt fs filename) := by
  rw [isDirectory, isDirectoryAt, Traced.value_bind, OS.value_stat, Traced.ok_bind]
  rcases fs.stat (cstr filename) with _ | status <;> simp

/-! ## The index of a directory -/

variable (self : StaticFile) (mgz : Mgz) (mem : Memory) (fs : FileSystem)

/-- What the loop over the entries adds for one of them. -/
def entryRow (file : Bytes) (entry : EntryName) : Bytes :=
  let localPath := entry.1
  if localPath = str "." ∨ localPath = str ".." then []
  else
    let url := file.drop self.root.length ++ str "/" ++ localPath
    let sysFile := file ++ fileSeparator :: localPath
    let status := (fs.stat (cstr sysFile)).getD (mem.status sysFile)
    let modifDate := Calendar.strftime ((mem.tm sysFile).getD (Calendar.gmtime status.stMtime))
    let (type, size) :=
      if isDirectoryAt fs sysFile then (folderImage, str "-")
      else (fileImage, mgz.format (str "%.1fk") [.kilobytes status.stSize])
    mgz.format indexFile
      [.s (cstr type), .s (cstr url), .s (cstr localPath), .s modifDate, .s (cstr size)]

theorem value_addEntry (file result : Bytes) (entry : EntryName) :
    (self.addEntry mgz mem file result entry).value fs =
      .ok (result ++ self.entryRow mgz mem fs file entry) := by
  by_cases hlocal : entry.1 = str "." ∨ entry.1 = str ".."
  · simp [addEntry, entryRow, hlocal]
  · simp only [addEntry, entryRow, if_neg hlocal, Traced.value_bind, OS.value_stat, Traced.ok_bind,
      value_isDirectory]
    -- the two kinds of entries differ in the image and the size
    cases isDirectoryAt fs (file ++ fileSeparator :: entry.1) <;> rfl

/-- The loop over the entries adds their rows in order. -/
theorem value_foldlM_addEntry (file : Bytes) (entries : List EntryName) (result : Bytes) :
    (entries.foldlM (self.addEntry mgz mem file) result).value fs =
      .ok (result ++ entries.flatMap (self.entryRow mgz mem fs file)) := by
  induction entries generalizing result with
  | nil => simp
  | cons entry entries ih =>
    rw [List.foldlM_cons, Traced.value_bind, value_addEntry, List.flatMap_cons, ← List.append_assoc]
    exact ih _

/-- The link to the parent directory can be made for every file name the layer builds. -/
theorem indexHead_getFilename (file : Bytes) :
    ∃ head, self.indexHead mgz (self.getFilename file) = .ok head := by
  rw [indexHead]
  by_cases hroot : self.getFilename file = self.root
  · exact ⟨_, if_neg (not_not.mpr hroot)⟩
  · obtain ⟨t, ht⟩ := (self.getFilename_cases file).resolve_left hroot
    -- what is behind the root begins with a separator, so that the last one is found
    have hpath : (self.getFilename file).drop self.root.length = slash :: t := by
      rw [ht, List.drop_left]
    rw [if_pos hroot, hpath]
    rcases hfound : findLast (slash :: t) fileSeparator with _ | _ | found
    · exact absurd hfound (by simp [findLast, fileSeparator, find_eq_none_iff])
    · exact ⟨_, by rw [parentOf, hfound]; rfl⟩
    · exact ⟨_, by rw [parentOf, hfound]; rfl⟩

/-- An index is its head, the rows of the entries and the footer; a directory that cannot be opened
has none. -/
theorem value_getDirectoryContent {file head : Bytes} (hhead : self.indexHead mgz file = .ok head) :
    (self.getDirectoryContent mgz mem file).value fs =
      .ok (match fs.opendir (cstr file) with
        | none => []
        | some entries =>
          head ++ entries.flatMap (self.entryRow mgz mem fs file) ++ indexFooter) := by
  rw [getDirectoryContent, Traced.value_bind, Traced.value_lift, hhead, Traced.ok_bind,
    Traced.value_bind, OS.value_opendir, Traced.ok_bind]
  rcases fs.opendir (cstr file) with _ | entries
  · rfl
  · simp only [Traced.value_bind, value_foldlM_addEntry, Traced.ok_bind, Traced.value_pure]

/-! ## What the layer serves -/

/-- The file name a request is mapped to. -/
def filenameOf (request : Request) : Bytes := self.getFilename (request.path.drop 1)

/-- The layer resolves the path of the request: the file name exists, and it is not a directory or
directories may be explored. -/
def Resolves (request : Request) : Prop :=
  existsAt fs (self.filenameOf request) = true ∧
    (isDirectoryAt fs (self.filenameOf request) = false ∨ self.allowExplore = true)

instance (request : Request) : Decidable (self.Resolves fs request) :=
  inferInstanceAs (Decidable (_ ∧ _))

/-- What the layer produces for a request it resolves: a Content-Type and a body. -/
def Produces (request : Request) (type body : Bytes) : Prop :=
  if isDirectoryAt fs (self.filenameOf request) then
    type = str "text/html" ∧
      (self.getDirectoryContent mgz mem (self.filenameOf request)).value fs = .ok body
  else
    type = getMime mgz (self.filenameOf request) ∧
      (getFileContent (self.filenameOf request)).value fs = .ok body

/-- The Content-Type and the body the layer produces. -/
def page (request : Request) : Bytes × Bytes :=
  if isDirectoryAt fs (self.filenameOf request) then
    (str "text/html",
      ((self.getDirectoryContent mgz mem (self.filenameOf request)).value fs).toOption.getD [])
  else
    (getMime mgz (self.filenameOf request),
      (fs.ifstream (cstr (self.filenameOf request))).getD [])

theorem produces_page (request : Request) :
    self.Produces mgz mem fs request (self.page mgz mem fs request).1
      (self.page mgz mem fs request).2 := by
  obtain ⟨head, hhead⟩ := self.indexHead_getFilename mgz (request.path.drop 1)
  have hindex := self.value_getDirectoryContent mgz mem fs hhead
  cases hdir : isDirectoryAt fs (self.filenameOf request) with
  | true =>
    simp only [Produces, page, hdir, if_true, true_and]
    rw [filenameOf, hindex]
    rfl
  | false => simp [Produces, page, hdir]

/-- A response with the page `page` in it. -/
def served (page : Bytes × Bytes) (response : Response) : Response :=
  { response.assign (str "Content-Type") (.string page.1) with
    code := Error.ok.value
    body := page.2 }

end StaticFile

/-- The layer serves its page in place of a response with code 0 or 404 when it resolves the path,
and hands on the response of its inner middleware otherwise. -/
theorem value_staticFile (mgz : Mgz) (mem : Memory) (fs : FileSystem) (self : StaticFile)
    (app_ : Option Http.Middleware) (env : Env) :
    (staticFile mgz mem self app_ env).value fs =
      (getResponse app_ env).value fs >>= fun response =>
        .ok (if (response.code = 0 ∨ response.code = 404) ∧ self.Resolves fs env.request then
          StaticFile.served (self.page mgz mem fs env.request) response else response) := by
  rw [staticFile, Traced.value_bind]
  congr 1
  funext response
  have hname : self.getFilename (env.request.path.drop 1) = self.filenameOf env.request := rfl
  have hpage := self.produces_page mgz mem fs env.request
  by_cases hcode : response.code = 0 ∨ response.code = 404
  · simp only [getRequest, hname, hcode, if_true, true_and, Traced.value_bind,
      StaticFile.value_exist, Traced.ok_bind, StaticFile.Resolves, StaticFile.Produces] at hpage ⊢
    -- the three tests in the order of the source: does it exist, is it a directory, may one explore
    cases hexist : StaticFile.existsAt fs (self.filenameOf env.request) with
    | false => simp
    | true =>
      cases hdir : StaticFile.isDirectoryAt fs (self.filenameOf env.request) with
      | false =>
        simp only [hdir, Bool.false_eq_true, if_false, StaticFile.value_getFileContent,
          Except.ok.injEq] at hpage
        simp [hdir, StaticFile.served, hpage.1, ← hpage.2]
      | true =>
        simp only [hdir, if_true] at hpage
        cases hexplore : self.allowExplore <;> simp [hdir, StaticFile.served, hpage.1, hpage.2]
  · simp [hcode]

end Lhs.Middleware
