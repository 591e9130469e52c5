import LhsServer.Correctness.Confinement
import LhsServer.Correctness.StaticContent
import LhsServer.Middleware.Changing

/-!
# What a static file layer does while the file system changes

- `staticFile_eq_traced`: in a file system that does not change, the dialogue is `static_file`;
- `serve_changing`: whatever changes between the questions of one request, the call returns, asks
  about paths below the root only, and returns either the response it was given or a file or an
  index that is made of the answers it has got.
-/

namespace Lhs.Middleware

open Bytes Http Dialogue

namespace StaticFile.Changing

/-! ## One file system -/

/-- Over a file system that does not change, `exist` is that of `StaticFile`. -/
theorem traced_exist (filename : Bytes) :
    (exist filename).traced FileSystem.answer = StaticFile.exist filename := by
  rw [exist, StaticFile.exist]
  split
  · rfl
  · split <;> rfl

/-- Over a file system that does not change, `is_directory` asks the same two questions. -/
theorem traced_isDirectory (filename : Bytes) :
    (isDirectory filename).traced FileSystem.answer = StaticFile.isDirectory filename := by
  -- the first question is the same, and what follows it is compared for each answer
  refine traced_bind_eq rfl fun status => ?_
  cases status with
  | none => rfl
  | some status => exact traced_bind_eq (traced_exist filename) fun _ => rfl

theorem traced_getFileContent (file : Bytes) :
    (getFileContent file).traced FileSystem.answer = StaticFile.getFileContent file :=
  traced_bind_eq rfl fun _ => rfl

variable (self : StaticFile) (mgz : Mgz) (mem : Memory)

/-- The loop body has the same rows, and asks the same questions for them. -/
theorem traced_addEntry (file result : Bytes) (entry : EntryName) :
    (addEntry self mgz mem file result entry).traced FileSystem.answer =
      self.addEntry mgz mem file result entry := by
  rw [addEntry, StaticFile.addEntry]
  split
  · rfl
  · refine traced_bind_eq rfl fun status => ?_
    refine traced_bind_eq (traced_isDirectory _) fun isDir => ?_
    -- the two kinds of entries differ in the image and the size
    cases isDir <;> rfl

/-- So does the loop over the entries. -/
theorem traced_foldlM_addEntry (file : Bytes) (entries : List EntryName) (result : Bytes) :
    (entries.foldlM (addEntry self mgz mem file) result).traced FileSystem.answer =
      entries.foldlM (self.addEntry mgz mem file) result := by
  induction entries generalizing result with
  | nil => rfl
  | cons entry entries ih =>
    rw [List.foldlM_cons, List.foldlM_cons]
    exact traced_bind_eq (traced_addEntry self mgz mem file result entry) ih

/-- The index of a directory that does not change. -/
theorem traced_getDirectoryContent (file : Bytes) :
    (getDirectoryContent self mgz mem file).traced FileSystem.answer =
      self.getDirectoryContent mgz mem file := by
  refine traced_bind_eq rfl fun head => ?_
  refine traced_bind_eq rfl fun entries => ?_
  cases entries with
  | none => rfl
  | some entries =>
    exact traced_bind_eq (traced_foldlM_addEntry self mgz mem file entries head) fun _ => rfl

end StaticFile.Changing

open StaticFile in
/-- In a file system that does not change, the dialogue is what `static_file` does behind the call
of its inner middleware. -/
theorem staticFile_eq_traced (mgz : Mgz) (mem : Memory) (self : StaticFile)
    (app_ : Option Http.Middleware) (env : Env) :
    staticFile mgz mem self app_ env = getResponse app_ env >>= fun response =>
      (Changing.serve self mgz mem env.request response).traced FileSystem.answer := by
  rw [staticFile]
  congr 1
  funext response
  symm
  rw [Changing.serve]
  simp only [getRequest]
  -- the tests of the method in the order of the source, each on both sides
  split
  · refine traced_bind_eq (Changing.traced_exist _) fun found => ?_
    split
    · refine traced_bind_eq (Changing.traced_isDirectory _) fun isDir => ?_
      split
      · split
        · exact traced_bind_eq (Changing.traced_getDirectoryContent self mgz mem _) fun _ => rfl
        · rfl
      · exact traced_bind_eq (Changing.traced_getFileContent _) fun _ => rfl
    · rfl
  · rfl

namespace StaticFile.Changing

/-- The loop that reads a stream returns what there was when the file was opened. -/
theorem getFileContent_eq (file : Bytes) :
    getFileContent file = Session.ifstream file >>= fun io => pure (io.getD []) := by
  rw [getFileContent]
  congr 1
  funext io
  rw [readBlocks_eq, List.nil_append]
  rfl

/-! ## Confinement -/

section Confined

/-- The questions are about paths below the root. -/
abbrev Asks (root : Bytes) {α : Type} (m : Session α) (V : α → Prop) : Prop :=
  m.After fun history a => (∀ e ∈ history, Confined root e.1.path) ∧ V a

variable {root : Bytes} {α : Type} {V : α → Prop}

/-- A computation without questions asks about nothing. -/
theorem Asks.pure {a : α} (h : V a) : Asks root (Pure.pure a) V :=
  After.pure ⟨fun _ he => absurd he List.not_mem_nil, h⟩

/-- Nor does a computation that only fails or returns. -/
theorem Asks.lift {r : Run α} {a : α} (hr : r = .ok a) (h : V a) :
    Asks root (Dialogue.lift r) V :=
  After.lift hr ⟨fun _ he => absurd he List.not_mem_nil, h⟩

/-- One question about a path below the root; its answer can be anything. -/
theorem Asks.question {call : OsCall} (h : Confined root call.path) :
    Asks root (Dialogue.question call) fun _ => True :=
  After.question fun _ => ⟨fun e he => by rwa [List.mem_singleton.mp he], trivial⟩

/-- `exist` asks about a name that has no `..` in it only, and finds no other. -/
theorem asks_exist {filename : Bytes}
    (h : ¬str ".." <:+: filename → Confined root (cstr filename)) :
    Asks root (exist filename) fun found => found → ¬str ".." <:+: filename := by
  rw [exist]
  split
  · exact Asks.pure nofun
  · split
    · exact Asks.pure nofun
    · rename_i hparent _
      exact (Asks.question (h hparent)).mono fun _ _ he => ⟨he.1, fun _ => hparent⟩

/-- `is_directory` asks for the status of its name, and perhaps for access to it. -/
theorem asks_isDirectory {filename : Bytes} (h : Confined root (cstr filename)) :
    Asks root (isDirectory filename) fun _ => True := by
  refine After.bind_forall (Asks.question h) fun status _ => ?_
  cases status with
  | none => exact Asks.pure trivial
  | some status => exact After.bind_forall (asks_exist fun _ => h) fun _ _ => Asks.pure trivial

/-- `get_file_content` opens the file it is given. -/
theorem asks_getFileContent {file : Bytes} (h : Confined root (cstr file)) :
    Asks root (getFileContent file) fun _ => True := by
  rw [getFileContent_eq]
  exact After.bind_forall (Asks.question h) fun _ _ => Asks.pure trivial

variable {self : StaticFile} (hne : self.root ≠ []) (hnul : NUL ∉ self.root)

include hne hnul

/-- For an entry, the loop asks about its name below the directory, which stays below the root. -/
theorem asks_addEntry (mgz : Mgz) (mem : Memory) {file : Bytes}
    (h : ¬str ".." <:+: self.getFilename file) (result : Bytes) (entry : EntryName) :
    Asks self.root (addEntry self mgz mem (self.getFilename file) result entry) fun _ => True := by
  rw [addEntry]
  split
  · exact Asks.pure trivial
  · rename_i hentry
    have hconfined := confined_entry hne hnul h entry fun heq => hentry (Or.inr heq)
    refine After.bind_forall (Asks.question hconfined) fun _ _ => ?_
    refine After.bind_forall (asks_isDirectory hconfined) fun isDir _ => ?_
    cases isDir with
    | false => exact Asks.pure trivial
    | true => exact Asks.pure trivial

/-- The index of a directory below the root is made by questions about paths below the root. -/
theorem asks_getDirectoryContent (mgz : Mgz) (mem : Memory) {file : Bytes}
    (h : ¬str ".." <:+: self.getFilename file) :
    Asks self.root (getDirectoryContent self mgz mem (self.getFilename file)) fun _ => True := by
  have hconfined := confined_getFilename hne hnul h
  obtain ⟨head, hhead⟩ := self.indexHead_getFilename mgz file
  refine After.bind_forall (Asks.lift (V := fun _ => True) hhead trivial) fun _ _ => ?_
  refine After.bind_forall (Asks.question hconfined) fun entries _ => ?_
  cases entries with
  | none => exact Asks.pure trivial
  | some entries =>
    refine After.bind_forall (V := fun _ => True) (After.foldlM_forall ?_ entries trivial)
      fun _ _ => Asks.pure trivial
    exact fun result entry _ => asks_addEntry hne hnul mgz mem h result entry

/-- `static_file` asks about paths below its root only, whatever answers it gets. -/
theorem asks_serve (mgz : Mgz) (mem : Memory) (request : Request) (response : Response) :
    Asks self.root (serve self mgz mem request response) fun _ => True := by
  rw [serve]
  split
  · refine After.bind_forall (asks_exist fun h => confined_getFilename hne hnul h)
      fun found hfound => ?_
    split
    · rename_i hf
      have hparent := hfound hf
      have hconfined := confined_getFilename hne hnul hparent
      refine After.bind_forall (asks_isDirectory hconfined) fun isDir _ => ?_
      split
      · split
        · exact After.bind_forall (asks_getDirectoryContent hne hnul mgz mem hparent)
            fun _ _ => Asks.pure trivial
        · exact Asks.pure trivial
      · exact After.bind_forall (asks_getFileContent hconfined) fun _ _ => Asks.pure trivial
    · exact Asks.pure trivial
  · exact Asks.pure trivial

end Confined

/-! ## What is served -/

/-- The questions of one call with their answers. -/
abbrev History := List (Answered OsCall.Answer)

/-- `exist` has returned `found` for these answers. -/
def ToldExist (history : History) (filename : Bytes) : Bool → Prop
  | true => ⟨.access (cstr filename), true⟩ ∈ history
  | false => str ".." <:+: filename ∨ filename = [] ∨ ⟨.access (cstr filename), false⟩ ∈ history

/-- `is_directory` has returned `isDir` for these answers. -/
def ToldDirectory (history : History) (filename : Bytes) : Bool → Prop
  | true => ∃ status, ⟨.stat (cstr filename), some status⟩ ∈ history ∧ isDirMode status = true
  | false =>
    ⟨.stat (cstr filename), none⟩ ∈ history ∨ ToldExist history filename false ∨
      ∃ status, ⟨.stat (cstr filename), some status⟩ ∈ history ∧ isDirMode status = false

section Told

variable {history history' : History} {filename : Bytes}

/-- What `exist` was told stays told in a longer history. -/
theorem ToldExist.mono (hsub : history ⊆ history') {found : Bool}
    (h : ToldExist history filename found) : ToldExist history' filename found := by
  cases found with
  | true => exact hsub h
  | false => exact h.imp_right (Or.imp_right fun hasked => hsub hasked)

/-- So does what `is_directory` was told. -/
theorem ToldDirectory.mono (hsub : history ⊆ history') {isDir : Bool}
    (h : ToldDirectory history filename isDir) : ToldDirectory history' filename isDir := by
  cases isDir with
  | true =>
    obtain ⟨status, hstat, hmode⟩ := h
    exact ⟨status, hsub hstat, hmode⟩
  | false =>
    rcases h with hstat | hexist | ⟨status, hstat, hmode⟩
    · exact Or.inl (hsub hstat)
    · exact Or.inr (Or.inl (hexist.mono hsub))
    · exact Or.inr (Or.inr ⟨status, hsub hstat, hmode⟩)

/-- `exist` returns what it was told. -/
theorem after_exist (filename : Bytes) :
    (exist filename).After fun history found => ToldExist history filename found := by
  rw [exist]
  split
  · rename_i hparent
    exact After.pure (Or.inl hparent)
  · split
    · rename_i hnil
      exact After.pure (Or.inr (Or.inl hnil))
    · refine After.question fun found => ?_
      cases found with
      | true => exact List.mem_singleton_self _
      | false => exact Or.inr (Or.inr (List.mem_singleton_self _))

/-- `is_directory` returns what its two questions have told. -/
theorem after_isDirectory (filename : Bytes) :
    (isDirectory filename).After fun history isDir => ToldDirectory history filename isDir := by
  refine After.bind (After.question fun status => ?_)
  cases status with
  | none => exact After.pure (Or.inl (List.mem_singleton_self _))
  | some status =>
    refine After.bind ((after_exist filename).mono fun history found hexist => After.pure ?_)
    -- the answer about the status stands in front of those that `exist` has got
    have hsub : history ⊆ [⟨.stat (cstr filename), some status⟩] ++ (history ++ []) := by simp
    have hstat : ⟨.stat (cstr filename), some status⟩ ∈
        ([⟨.stat (cstr filename), some status⟩] ++ (history ++ []) : History) := by simp
    cases found with
    | false => exact Or.inr (Or.inl (hexist.mono hsub))
    | true =>
      cases hmode : isDirMode status with
      | true => exact ⟨status, hstat, hmode⟩
      | false => exact Or.inr (Or.inr ⟨status, hstat, hmode⟩)

/-- `get_file_content` returns the bytes of the stream that it has opened. -/
theorem after_getFileContent (file : Bytes) :
    (getFileContent file).After fun history content =>
      ∃ io, ⟨.ifstream (cstr file), io⟩ ∈ history ∧ content = io.getD [] := by
  rw [getFileContent_eq]
  exact After.bind (After.question fun io => After.pure ⟨io, List.mem_singleton_self _, rfl⟩)

end Told

section Served

variable (self : StaticFile) (mgz : Mgz) (mem : Memory)

/-- The row of an entry, from the first answer about its status and the kind `is_directory` has
told. Without an answer the status is what memory holds. -/
def rowOf (file : Bytes) (entry : EntryName) (first : Option Stat) (isDir : Bool) : Bytes :=
  let localPath := entry.1
  let url := file.drop self.root.length ++ str "/" ++ localPath
  let sysFile := file ++ fileSeparator :: localPath
  let status := first.getD (mem.status sysFile)
  let modifDate := Calendar.strftime ((mem.tm sysFile).getD (Calendar.gmtime status.stMtime))
  let (type, size) :=
    if isDir then (folderImage, str "-")
    else (fileImage, mgz.format (str "%.1fk") [.kilobytes status.stSize])
  mgz.format indexFile
    [.s (cstr type), .s (cstr url), .s (cstr localPath), .s modifDate, .s (cstr size)]

/-- The loop has added `row` for the entry: nothing for `.` and `..`, and otherwise the row that is
made of answers about this entry, with what memory holds where the first `stat` has failed. -/
def ToldRow (history : History) (file : Bytes) (entry : EntryName) (row : Bytes) : Prop :=
  if entry.1 = str "." ∨ entry.1 = str ".." then row = []
  else
    let sysFile := file ++ fileSeparator :: entry.1
    ∃ first isDir, ⟨.stat (cstr sysFile), first⟩ ∈ history ∧
      ToldDirectory history sysFile isDir ∧ row = rowOf self mgz mem file entry first isDir

/-- `get_directory_content` has returned `index` for these answers. -/
inductive ToldIndex (history : History) (file : Bytes) : Bytes → Prop where
  /-- the directory could not be opened -/
  | unopened (hopen : ⟨.opendir (cstr file), none⟩ ∈ history) : ToldIndex history file []
  /-- a row for each entry of the directory, in the order of the entries -/
  | listed {head : Bytes} {entries : List EntryName} {rows : List Bytes}
      (hhead : self.indexHead mgz file = .ok head)
      (hopen : ⟨.opendir (cstr file), some entries⟩ ∈ history)
      (hrows : List.Forall₂ (ToldRow self mgz mem history file) entries rows) :
      ToldIndex history file (head ++ rows.flatten ++ indexFooter)

/-- What the layer makes of the response of its inner middleware for these answers. -/
inductive Serves (request : Request) (response : Response) (history : History) :
    Response → Prop where
  /-- the inner middleware has an answer -/
  | answered (hcode : ¬(response.code = 0 ∨ response.code = 404)) (hnone : history = []) :
      Serves request response history response
  /-- there is no such file -/
  | missing (hcode : response.code = 0 ∨ response.code = 404)
      (hexist : ToldExist history (self.filenameOf request) false) :
      Serves request response history response
  /-- a directory that may not be explored -/
  | closed (hcode : response.code = 0 ∨ response.code = 404)
      (hexist : ToldExist history (self.filenameOf request) true)
      (hdir : ToldDirectory history (self.filenameOf request) true)
      (hexplore : self.allowExplore = false) :
      Serves request response history response
  /-- the content of the file that was opened; a file that could not be opened is empty -/
  | file (hcode : response.code = 0 ∨ response.code = 404)
      (hexist : ToldExist history (self.filenameOf request) true)
      (hdir : ToldDirectory history (self.filenameOf request) false) {content : Option Bytes}
      (hopen : ⟨.ifstream (cstr (self.filenameOf request)), content⟩ ∈ history) :
      Serves request response history
        (served (getMime mgz (self.filenameOf request), content.getD []) response)
  /-- the index of the directory that was opened -/
  | index (hcode : response.code = 0 ∨ response.code = 404)
      (hexist : ToldExist history (self.filenameOf request) true)
      (hdir : ToldDirectory history (self.filenameOf request) true)
      (hexplore : self.allowExplore = true) {body : Bytes}
      (hindex : ToldIndex self mgz mem history (self.filenameOf request) body) :
      Serves request response history (served (str "text/html", body) response)

variable {self mgz mem} {history history' : History}

/-- A row that was told stays told when more questions are asked. -/
theorem ToldRow.mono (hsub : history ⊆ history') {file : Bytes} {entry : EntryName} {row : Bytes}
    (h : ToldRow self mgz mem history file entry row) :
    ToldRow self mgz mem history' file entry row := by
  unfold ToldRow at h ⊢
  split
  · rwa [if_pos ‹_›] at h
  · rw [if_neg ‹_›] at h
    obtain ⟨first, isDir, hstat, hdir, hrow⟩ := h
    exact ⟨first, isDir, hsub hstat, hdir.mono hsub, hrow⟩

/-- So does an index, row by row. -/
theorem ToldIndex.mono (hsub : history ⊆ history') {file index : Bytes}
    (h : ToldIndex self mgz mem history file index) :
    ToldIndex self mgz mem history' file index := by
  cases h with
  | unopened hopen => exact .unopened (hsub hopen)
  | listed hhead hopen hrows =>
    exact .listed hhead (hsub hopen) (hrows.imp fun _ _ hrow => hrow.mono hsub)

variable (self mgz mem)

/-- The loop body adds a row that the answers about its entry have told. -/
theorem after_addEntry (file result : Bytes) (entry : EntryName) :
    (addEntry self mgz mem file result entry).After fun history result' =>
      ∃ row, ToldRow self mgz mem history file entry row ∧ result' = result ++ row := by
  rw [addEntry]
  split
  · rename_i hlocal
    exact After.pure ⟨[], by rw [ToldRow, if_pos hlocal], (List.append_nil result).symm⟩
  · rename_i hlocal
    let sysFile := file ++ fileSeparator :: entry.1
    refine After.bind (After.question fun first => ?_)
    refine After.bind ((after_isDirectory sysFile).mono fun history isDir hdir => ?_)
    -- the history of the loop body: the first `stat`, and then what `is_directory` has asked
    have htold : ToldRow self mgz mem ([⟨.stat (cstr sysFile), first⟩] ++ (history ++ []))
        file entry (rowOf self mgz mem file entry first isDir) := by
      rw [ToldRow, if_neg hlocal]
      exact ⟨first, isDir, by simp [sysFile], hdir.mono (by simp), rfl⟩
    cases isDir with
    | true => exact ⟨_, htold, rfl⟩
    | false => exact ⟨_, htold, rfl⟩

/-- The loop adds a row for each entry. -/
theorem after_foldlM_addEntry (file result : Bytes) (entries : List EntryName) :
    (entries.foldlM (addEntry self mgz mem file) result).After fun history result' =>
      ∃ rows, List.Forall₂ (ToldRow self mgz mem history file) entries rows ∧
        result' = result ++ rows.flatten := by
  refine After.foldlM (I := fun passed history result' =>
    ∃ rows, List.Forall₂ (ToldRow self mgz mem history file) passed rows ∧
      result' = result ++ rows.flatten) ?_ entries ⟨[], .nil, (List.append_nil result).symm⟩
  rintro passed entry history result' ⟨rows, hrows, rfl⟩
  refine (after_addEntry self mgz mem file _ entry).mono fun history' result' => ?_
  rintro ⟨row, hrow, rfl⟩
  -- what was told of the entries before stays told in the longer history
  refine ⟨rows ++ [row], ?_, by simp⟩
  refine List.rel_append (hrows.imp fun _ _ h => h.mono (List.subset_append_left _ _)) ?_
  exact .cons (hrow.mono (List.subset_append_right _ _)) .nil

/-- The index has a row for each entry that was opened, told by the answers about it. -/
theorem after_getDirectoryContent {file head : Bytes} (hhead : self.indexHead mgz file = .ok head) :
    (getDirectoryContent self mgz mem file).After fun history index =>
      ToldIndex self mgz mem history file index := by
  rw [getDirectoryContent]
  refine After.bind (After.lift hhead ?_)
  refine After.bind (After.question fun entries => ?_)
  cases entries with
  | none => exact After.pure (.unopened (List.mem_singleton_self _))
  | some entries =>
    refine After.bind ((after_foldlM_addEntry self mgz mem file head entries).mono ?_)
    rintro history result ⟨rows, hrows, rfl⟩
    refine After.pure (.listed hhead (by simp) (hrows.imp fun _ _ hrow => hrow.mono (by simp)))

/-- What `static_file` returns is told by the answers to its questions, in each of its branches. -/
theorem after_serve (request : Request) (response : Response) :
    (serve self mgz mem request response).After fun history response' =>
      Serves self mgz mem request response history response' := by
  rw [serve]
  split
  · rename_i hcode
    have hname : self.getFilename (request.path.drop 1) = self.filenameOf request := rfl
    rw [hname]
    -- each answer that has decided a test is still in the history at the end
    refine After.bind ((after_exist _).mono fun asked found hexist => ?_)
    cases found with
    | false => exact After.pure (.missing hcode (hexist.mono (by simp)))
    | true =>
      simp only [if_true]
      refine After.bind ((after_isDirectory _).mono fun asked' isDir hdir => ?_)
      cases isDir with
      | false =>
        simp only [Bool.false_eq_true, if_false]
        refine After.bind ((after_getFileContent _).mono ?_)
        rintro asked'' content ⟨io, hopen, rfl⟩
        exact After.pure (.file hcode (hexist.mono (by simp)) (hdir.mono (by simp))
          (by simp [hopen]))
      | true =>
        simp only [if_true]
        cases hexplore : self.allowExplore with
        | false =>
          exact After.pure (.closed hcode (hexist.mono (by simp)) (hdir.mono (by simp)) hexplore)
        | true =>
          simp only [if_true]
          -- the head of the index never faults for a name that the layer has built
          obtain ⟨head, hhead⟩ := self.indexHead_getFilename mgz (request.path.drop 1)
          refine After.bind ((after_getDirectoryContent self mgz mem hhead).mono ?_)
          intro asked'' index hindex
          exact After.pure (.index hcode (hexist.mono (by simp)) (hdir.mono (by simp)) hexplore
            (hindex.mono (by simp)))
  · rename_i hcode
    exact After.pure (.answered hcode rfl)

end Served

/-- Whatever changes in the file system between the questions of one request, `static_file` returns
behind its inner middleware; it has asked about paths below the root only, each answer is the one
of its moment, and what it returns is what `Serves` tells for these answers. -/
theorem serve_changing (mgz : Mgz) (mem : Memory) (allow : Bool) {root : Bytes}
    (hne : root ≠ []) (hnul : NUL ∉ root) (request : Request) (response : Response)
    (moments : ℕ → FileSystem) :
    ∃ history response',
      (serve (.new allow root) mgz mem request response).runs FileSystem.answer moments =
        (.ok response', history) ∧
      (∀ e ∈ history, Confined root e.1.path) ∧
      (∀ (n : ℕ) (e : Answered OsCall.Answer), history[n]? = some e →
        e.2 = (moments n).answer e.1) ∧
      Serves (.new allow root) mgz mem request response history response' := by
  let self := StaticFile.new allow root
  have hne' : self.root ≠ [] := setRoot_ne_nil hne
  have hnul' : NUL ∉ self.root := nul_not_mem_setRoot hnul
  -- both predicates are about one history
  have hafter := (asks_serve hne' hnul' mgz mem request response).and
    (after_serve self mgz mem request response)
  obtain ⟨response', hok, ⟨hconfined, -⟩, hserves⟩ := hafter.runs FileSystem.answer moments
  refine ⟨_, response', Prod.ext hok rfl, fun e he => ?_, fun n e => answer_of_runs, hserves⟩
  rw [← confined_setRoot]
  exact hconfined e he

/-- A file that is removed after it was asked for three times. -/
def removed (n : ℕ) : FileSystem :=
  .ofFiles (if n < 3 then [(str "www/a.txt", str "content")] else [])

/-- The file is removed before it is opened: the response is an empty page with the code 200. -/
theorem serve_changing_removed :
    ∃ history response',
      (serve (.new false (str "www/")) .plain .zero (.get (str "/a.txt") rfl) (.default .zero)).runs
        FileSystem.answer removed = (.ok response', history) ∧
      (response'.code = 200 ∧ response'.body = []) ∧
      ∀ e ∈ history, Confined (str "www/") e.1.path := by
  have hne : str "www/" ≠ [] := by decide
  have hnul : NUL ∉ str "www/" := by decide
  obtain ⟨history, response', hruns, hconfined, -, -⟩ :=
    serve_changing .plain .zero false hne hnul (.get (str "/a.txt") rfl) (.default .zero) removed
  refine ⟨history, response', hruns, ?_, hconfined⟩
  have hopened : ((serve (.new false (str "www/")) .plain .zero (.get (str "/a.txt") rfl)
      (.default .zero)).runs FileSystem.answer removed).1 =
        .ok (served (getMime .plain (str "www/a.txt"), []) (.default .zero)) := by
    rw [serve]
    simp only [getFileContent_eq]
    rfl
  rw [hruns] at hopened
  obtain rfl := Except.ok.inj hopened
  exact ⟨rfl, rfl⟩

end StaticFile.Changing

end Lhs.Middleware
