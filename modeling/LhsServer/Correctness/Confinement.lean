import LhsServer.Library.LexPath
import LhsServer.Middleware.StaticFile

/-!
# Confinement of static files

Every path that `static_file` hands to the operating system lies below its root: it is absolute
exactly when the root is, and its components begin with those of the root.

- `getFilename_cases`: a file name is the root, or the root followed by a separator and more;
- `confined_append`: what is appended to the root without a component `..` is confined, also after
  the cut at the first NUL;
- `staticFile_confined`: the questions `static_file` asks, those of its inner middleware aside, are
  about confined paths.
-/

namespace Lhs.Middleware

open Bytes Http Traced

/-! ## Paths below the root -/

/-- The path is absolute exactly when the root is, and its normalised components begin with those
of the root. -/
def Confined (root path : Bytes) : Prop :=
  (LexPath.IsAbsolute slash path ↔ LexPath.IsAbsolute slash root) ∧
    LexPath.normalized slash dot root <+: LexPath.normalized slash dot path

/-- A path behind the root that never goes up stays below it. -/
theorem confined_append {root t : Bytes} (hne : root ≠ [])
    (h : [dot, dot] ∉ t.splitOn slash) : Confined root (root ++ slash :: t) := by
  refine ⟨LexPath.isAbsolute_append hne _, ?_⟩
  rw [LexPath.normalized_append_of_parent_not_mem dot hne h]
  exact List.prefix_append _ _

namespace StaticFile

/-! ## The root -/

/-- The constructor leaves the root as it is, or removes one separator from its end. -/
theorem setRoot_cases (root : Bytes) :
    setRoot root = root ∨ (root = setRoot root ++ [slash] ∧ setRoot root ≠ []) := by
  rw [setRoot]
  split
  · rename_i h
    obtain ⟨hlength, hlast⟩ := h
    obtain ⟨r, rfl⟩ := List.getLast?_eq_some_iff.mp hlast
    right
    -- the root has more than one byte, so that something is left in front of the separator
    rw [List.dropLast_concat]
    refine ⟨rfl, ?_⟩
    rintro rfl
    simp at hlength
  · exact Or.inl rfl

/-- A root that is not empty stays so. -/
theorem setRoot_ne_nil {root : Bytes} (hne : root ≠ []) : setRoot root ≠ [] := by
  rcases setRoot_cases root with heq | ⟨-, hne'⟩
  · rwa [heq]
  · exact hne'

/-- `set_root` adds no NUL. -/
theorem nul_not_mem_setRoot {root : Bytes} (hnul : NUL ∉ root) : NUL ∉ setRoot root := by
  rcases setRoot_cases root with heq | ⟨heq, -⟩
  · rwa [heq]
  · intro h
    rw [heq] at hnul
    exact hnul (List.mem_append_left _ h)

/-- A separator at the end of the root makes no difference to what is below it. -/
theorem confined_setRoot (root path : Bytes) :
    Confined (setRoot root) path ↔ Confined root path := by
  rcases setRoot_cases root with heq | ⟨heq, hne⟩
  · rw [heq]
  · have habs : LexPath.IsAbsolute slash (setRoot root ++ [slash]) ↔
        LexPath.IsAbsolute slash (setRoot root) := LexPath.isAbsolute_append hne [slash]
    have hnorm : LexPath.normalized slash dot (setRoot root ++ [slash]) =
        LexPath.normalized slash dot (setRoot root) := by
      -- the separator only adds an empty component, which normalisation drops
      rw [LexPath.normalized_append_of_parent_not_mem dot hne (by decide)]
      exact List.append_nil _
    conv_rhs => rw [heq, Confined, habs, hnorm]
    rfl

/-! ## File names -/

/-- On a POSIX system the separator of file names is that of paths. -/
@[simp] theorem replace_slash (s : Bytes) : replace s slash fileSeparator = s := by
  have hself : (fun c : UInt8 => if c = slash then fileSeparator else c) = id := by
    funext c
    split
    · rename_i h
      exact h.symm
    · rfl
  rw [replace, hself, List.map_id]

/-- A file name is the root, or the root followed by a separator and more. -/
theorem getFilename_cases (self : StaticFile) (file : Bytes) :
    self.getFilename file = self.root ∨ ∃ t, self.getFilename file = self.root ++ slash :: t := by
  simp only [getFilename, replace_slash]
  split
  -- the separator that is removed is the one behind the root, or the last byte of `file`
  · rcases eq_or_ne file [] with rfl | hne
    · left
      exact List.dropLast_concat
    · right
      refine ⟨file.dropLast, ?_⟩
      rw [List.dropLast_append_of_ne_nil (List.cons_ne_nil _ _), List.dropLast_cons_of_ne_nil hne]
      rfl
  · exact Or.inr ⟨file, rfl⟩

section Names

variable {self : StaticFile} (hne : self.root ≠ []) (hnul : NUL ∉ self.root)

include hne hnul

/-- A name that begins with the root and has no component `..` is confined, also after the cut. -/
theorem confined_cstr {filename : Bytes}
    (h : filename = self.root ∨ ∃ t, filename = self.root ++ slash :: t ∧
      [dot, dot] ∉ (cstr t).splitOn slash) :
    Confined self.root (cstr filename) := by
  rcases h with rfl | ⟨t, rfl, ht⟩
  -- the name is the root itself
  · rw [cstr_of_nul_not_mem hnul]
    exact ⟨Iff.rfl, List.prefix_rfl⟩
  -- the root has no NUL, so that the cut falls behind it
  · have hcut : cstr (self.root ++ slash :: t) = self.root ++ slash :: cstr t := by
      rw [cstr_append_of_nul_not_mem hnul]
      rfl
    rw [hcut]
    exact confined_append hne ht

/-- The name of a file that passes the test for `..` is confined. -/
theorem confined_getFilename {file : Bytes} (h : ¬str ".." <:+: self.getFilename file) :
    Confined self.root (cstr (self.getFilename file)) := by
  apply confined_cstr hne hnul
  rcases self.getFilename_cases file with heq | ⟨t, heq⟩
  · exact Or.inl heq
  · refine Or.inr ⟨t, heq, LexPath.parent_not_mem_splitOn dot fun hsub => h ?_⟩
    rw [heq]
    -- `..` in what the cut leaves would be `..` in the name that was tested
    exact (hsub.trans (cstr_isPrefixOf t).isInfix).trans
      ((List.suffix_cons slash t).trans (List.suffix_append _ _)).isInfix

/-- The name of an entry of a listed directory is confined with the directory. -/
theorem confined_entry {file : Bytes} (h : ¬str ".." <:+: self.getFilename file)
    (entry : EntryName) (hentry : entry.1 ≠ str "..") :
    Confined self.root (cstr (self.getFilename file ++ slash :: entry.1)) := by
  obtain ⟨name, _, hslash, hname⟩ := entry
  have hsplit : [dot, dot] ∉ name.splitOn slash := by
    rw [List.splitOn_eq_singleton hslash, List.mem_singleton]
    exact Ne.symm hentry
  by_cases hfile : NUL ∈ self.getFilename file
  -- a NUL in the name of the directory: the system sees the directory in place of the entry
  · rw [cstr_append_of_nul_mem hfile]
    exact confined_getFilename hne hnul h
  · refine confined_cstr hne hnul (Or.inr ?_)
    rcases self.getFilename_cases file with heq | ⟨t, heq⟩
    · refine ⟨name, by rw [heq], ?_⟩
      rwa [cstr_of_nul_not_mem hname]
    · have ht : ¬str ".." <:+: t := fun hsub => h <| by
        rw [heq]
        exact hsub.trans ((List.suffix_cons slash t).trans (List.suffix_append _ _)).isInfix
      -- otherwise nothing is cut, and the entry is one more component
      have hcut : cstr (t ++ slash :: name) = t ++ slash :: name := by
        apply cstr_of_nul_not_mem
        intro hmem
        rcases List.mem_append.mp hmem with hmem | hmem
        · exact hfile (heq ▸ List.mem_append_right _ (List.mem_cons_of_mem _ hmem))
        · rcases List.mem_cons.mp hmem with hmem | hmem
          · exact absurd hmem (by decide)
          · exact hname hmem
      refine ⟨t ++ slash :: name, by rw [heq]; simp, ?_⟩
      rw [hcut, List.splitOn_append_cons_self, List.mem_append, not_or]
      exact ⟨LexPath.parent_not_mem_splitOn dot ht, hsplit⟩

end Names

/-! ## The questions of `static_file` -/

section Calls

/-- The questions are about paths below the root. -/
abbrev Asks (root : Bytes) {α : Type} (m : OS α) (Q : α → Prop) : Prop :=
  Triple (fun call => Confined root call.path) m Q

variable {root : Bytes}

/-- `exist` asks about names without `..`, and finds only such. -/
theorem asks_exist {filename : Bytes}
    (h : ¬str ".." <:+: filename → Confined root (cstr filename)) :
    Asks root (exist filename) fun found => found → ¬str ".." <:+: filename := by
  refine Triple.ite (fun _ => Triple.pure nofun) fun hparent => ?_
  refine Triple.ite (fun _ => Triple.pure nofun) fun _ => ?_
  exact Triple.call (h hparent) fun _ _ => hparent

/-- `is_directory` asks about the name that it is given. -/
theorem asks_isDirectory {filename : Bytes} (h : Confined root (cstr filename)) :
    Asks root (isDirectory filename) fun _ => True := by
  refine Triple.bind (Triple.ask h) fun status _ => ?_
  cases status with
  | none => exact Triple.pure trivial
  | some status => exact Triple.bind (asks_exist fun _ => h) fun _ _ => Triple.pure trivial

/-- So does `get_file_content`. -/
theorem asks_getFileContent {file : Bytes} (h : Confined root (cstr file)) :
    Asks root (getFileContent file) fun _ => True :=
  Triple.bind (Triple.ask h) fun _ _ => Triple.lift fun _ _ => trivial

variable {self : StaticFile} (hne : self.root ≠ []) (hnul : NUL ∉ self.root)

include hne hnul

/-- The loop over the entries asks about names in the directory. -/
theorem asks_addEntry (mgz : Mgz) (mem : Memory) {file : Bytes}
    (h : ¬str ".." <:+: self.getFilename file) (result : Bytes) (entry : EntryName) :
    Asks self.root (self.addEntry mgz mem (self.getFilename file) result entry)
      fun _ => True := by
  refine Triple.ite (fun _ => Triple.pure trivial) fun hentry => ?_
  have hconfined := confined_entry hne hnul h entry fun heq => hentry (Or.inr heq)
  refine Triple.bind (Triple.ask hconfined) fun _ _ => ?_
  refine Triple.bind (asks_isDirectory hconfined) fun isDir _ => ?_
  cases isDir with
  | false =>
    exact Triple.bind (Q := fun _ => True) (Triple.pure trivial) fun _ _ => Triple.pure trivial
  | true =>
    exact Triple.bind (Q := fun _ => True) (Triple.pure trivial) fun _ _ => Triple.pure trivial

/-- An index is made by questions about paths below the root. -/
theorem asks_getDirectoryContent (mgz : Mgz) (mem : Memory) {file : Bytes}
    (h : ¬str ".." <:+: self.getFilename file) :
    Asks self.root (self.getDirectoryContent mgz mem (self.getFilename file))
      fun _ => True := by
  have hconfined := confined_getFilename hne hnul h
  refine Triple.bind (Triple.lift fun _ _ => trivial) fun head _ => ?_
  refine Triple.bind (Triple.ask hconfined) fun entries _ => ?_
  cases entries with
  | none => exact Triple.pure trivial
  | some entries =>
    refine Triple.bind (Q := fun _ => True) (Triple.foldlM ?_ entries trivial)
      fun _ _ => Triple.pure trivial
    exact fun result entry _ => asks_addEntry hne hnul mgz mem h result entry

end Calls

end StaticFile

/-- The questions `static_file` asks after those of its inner middleware are about paths below the
root it was constructed with. -/
theorem staticFile_confined (mgz : Mgz) (mem : Memory) (allow : Bool) {root : Bytes}
    (hne : root ≠ []) (hnul : NUL ∉ root) (app_ : Option Http.Middleware) (env : Env)
    (fs : FileSystem) :
    ∃ own, (staticFile mgz mem (.new allow root) app_ env).trace fs =
        (getResponse app_ env).trace fs ++ own ∧ ∀ call ∈ own, Confined root call.path := by
  let self := StaticFile.new allow root
  have hne' : self.root ≠ [] := StaticFile.setRoot_ne_nil hne
  have hnul' : NUL ∉ self.root := StaticFile.nul_not_mem_setRoot hnul
  -- the questions of the inner middleware come first
  unfold staticFile
  rw [trace_bind]
  refine ⟨_, rfl, ?_⟩
  cases (getResponse app_ env).value fs with
  | error e => simp
  | ok response =>
    intro call hcall
    rw [← StaticFile.confined_setRoot]
    -- the triple follows the method from its first test to its last
    revert call
    refine (Triple.ite (fun _ => ?_) (fun _ => Triple.pure trivial) :
      StaticFile.Asks self.root _ fun _ => True) fs |>.1
    refine Triple.bind (StaticFile.asks_exist fun h =>
      StaticFile.confined_getFilename hne' hnul' h) fun found hfound => ?_
    refine Triple.ite (fun hf => ?_) fun _ => Triple.pure trivial
    have hparent := hfound hf
    have hconfined := StaticFile.confined_getFilename hne' hnul' hparent
    refine Triple.bind (StaticFile.asks_isDirectory hconfined) fun isDir _ => ?_
    refine Triple.ite (fun _ => Triple.ite (fun _ => ?_) fun _ => Triple.pure trivial) fun _ => ?_
    · exact Triple.bind (StaticFile.asks_getDirectoryContent hne' hnul' mgz mem hparent)
        fun _ _ => Triple.pure trivial
    · exact Triple.bind (StaticFile.asks_getFileContent hconfined) fun _ _ => Triple.pure trivial

/-- A request for a file below `www/`. -/
theorem staticFile_confined_www :
    ∃ own, (staticFile .plain .zero (.new false (str "www/")) none
        (.ofRequest .zero (.get (str "/a.txt") rfl))).trace
          (.ofFiles [(str "www/a.txt", str "content")]) = [] ++ own ∧
      ∀ call ∈ own, Confined (str "www/") call.path :=
  staticFile_confined .plain .zero false (by decide) (by decide) none _ _

end Lhs.Middleware
