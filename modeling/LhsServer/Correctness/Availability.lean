import LhsServer.Correctness.Links

/-!
# Files below the root

Whether the files below the root of a `static_file` layer can be served: a file is named by the
components of its path, and the request for it by the same components.

- `FileSystem.IgnoresRuns`, `FileSystem.ReadableFile`: what is assumed about the file system, and
  about the file;
- `ServesBelow`: a readable regular file with these components below the root is served;
- `servesBelow_iff`: the roots and the components for which that is so.
-/

namespace Lhs

open Bytes Http

/-! ## Names of files -/

/-- `S_ISREG(status.st_mode)`. -/
def isRegMode (status : Stat) : Bool := status.stMode &&& 0o170000 == 0o100000

namespace FileSystem

/-- A run of separators in a name counts as one. -/
def IgnoresRuns (fs : FileSystem) : Prop :=
  ∀ name name', LexPath.squeeze slash name = LexPath.squeeze slash name' →
    fs.access name = fs.access name' ∧ fs.stat name = fs.stat name' ∧
      fs.ifstream name = fs.ifstream name' ∧ fs.opendir name = fs.opendir name'

/-- The file system that answers for a name what `fs` answers for the name without runs of
separators. -/
def ignoringRuns (fs : FileSystem) : FileSystem where
  access name := fs.access (LexPath.squeeze slash name)
  stat name := fs.stat (LexPath.squeeze slash name)
  ifstream name := fs.ifstream (LexPath.squeeze slash name)
  opendir name := fs.opendir (LexPath.squeeze slash name)

/-- A file system that squeezes the names it is asked for ignores runs of slashes. -/
theorem ignoresRuns_ignoringRuns (fs : FileSystem) : fs.ignoringRuns.IgnoresRuns := by
  intro name name' h
  simp only [ignoringRuns, h, and_self]

/-- The name is that of a regular file that can be read, with this content. -/
structure ReadableFile (fs : FileSystem) (name content : Bytes) : Prop where
  access : fs.access name = true
  regular : ∃ status, fs.stat name = some status ∧ isRegMode status = true
  ifstream : fs.ifstream name = some content

/-- A file is readable under every name that differs in runs of slashes only. -/
theorem ReadableFile.congr {fs : FileSystem} (hruns : fs.IgnoresRuns) {name name' content : Bytes}
    (hname : LexPath.squeeze slash name = LexPath.squeeze slash name')
    (h : fs.ReadableFile name content) : fs.ReadableFile name' content := by
  obtain ⟨haccess, hstat, hifstream, -⟩ := hruns name name' hname
  obtain ⟨hexists, hregular, hcontent⟩ := h
  exact ⟨haccess ▸ hexists, hstat ▸ hregular, hifstream ▸ hcontent⟩

end FileSystem

namespace Middleware.StaticFile

/-- Letters, digits, `-`, `_` and `.`. -/
def isNameChar (c : UInt8) : Bool := Regex.isAlnum c || c == 45 || c == 95 || c == dot

/-- A component of a path that names a file. -/
structure IsComponent (c : Bytes) : Prop where
  ne_nil : c ≠ []
  chars : ∀ b ∈ c, isNameChar b = true
  ne_current : c ≠ str "."
  ne_parent : c ≠ str ".."

instance (c : Bytes) : Decidable (IsComponent c) :=
  decidable_of_iff (c ≠ [] ∧ c.all isNameChar = true ∧ c ≠ str "." ∧ c ≠ str "..")
    ⟨fun h => ⟨h.1, List.all_eq_true.mp h.2.1, h.2.2.1, h.2.2.2⟩,
      fun h => ⟨h.ne_nil, List.all_eq_true.mpr h.chars, h.ne_current, h.ne_parent⟩⟩

/-- The components, joined by `/`. -/
def joined (components : List Bytes) : Bytes := [slash].intercalate components

/-- The name of the file with these components below the root; the empty root is the current
directory. -/
def below (root : Bytes) (components : List Bytes) : Bytes :=
  if root = [] then joined components else root ++ slash :: joined components

/-- A readable regular file with these components below the root, which the system knows by its
C string, is served for the path with the same components. -/
def ServesBelow (mgz : Mgz) (mem : Memory) (allow : Bool) (root : Bytes)
    (components : List Bytes) : Prop :=
  ∀ (fs : FileSystem) (content : Bytes), fs.IgnoresRuns →
    fs.ReadableFile (below (cstr root) components) content →
    ∀ app_ env response, env.request.path = slash :: joined components →
      (getResponse app_ env).value fs = .ok response → (response.code = 0 ∨ response.code = 404) →
      ∃ answer, (staticFile mgz mem (.new allow root) app_ env).value fs = .ok answer ∧
        answer.code = 200 ∧ answer.body = content

/-! ## Components -/

/-- A component has no slash in it. -/
theorem slash_not_mem_component {c : Bytes} (h : IsComponent c) : slash ∉ c := by
  intro hmem
  exact absurd (h.chars slash hmem) (by decide)

/-- Joined components have no NUL in them. -/
theorem nul_not_mem_joined {components : List Bytes} (h : ∀ c ∈ components, IsComponent c) :
    NUL ∉ joined components := by
  intro hmem
  rcases mem_intercalate hmem with heq | ⟨c, hc, hnul⟩
  · exact absurd heq (by decide)
  · exact absurd ((h c hc).chars NUL hnul) (by decide)

/-- The joined components end with a character of the last one. -/
theorem exists_getLast?_joined {components : List Bytes} (hne : components ≠ [])
    (h : ∀ c ∈ components, IsComponent c) :
    ∃ b, (joined components).getLast? = some b ∧ b ≠ slash := by
  induction components with
  | nil => exact absurd rfl hne
  | cons c components ih =>
    obtain ⟨hc, hrest⟩ := List.forall_mem_cons.mp h
    cases components with
    | nil =>
      have hlast := List.getLast?_eq_some_getLast hc.ne_nil
      refine ⟨c.getLast hc.ne_nil, by simpa [joined] using hlast, ?_⟩
      exact ne_of_mem_of_not_mem (List.getLast_mem hc.ne_nil) (slash_not_mem_component hc)
    | cons d components =>
      obtain ⟨b, hlast, hb⟩ := ih (List.cons_ne_nil _ _) hrest
      refine ⟨b, ?_, hb⟩
      rw [joined, List.intercalate_cons_cons, List.append_assoc, List.getLast?_append, ← joined,
        List.getLast?_append, hlast]
      rfl

/-- They do not begin with a slash. -/
theorem joined_head? {components : List Bytes} (hne : components ≠ [])
    (h : ∀ c ∈ components, IsComponent c) :
    ∃ b, (joined components).head? = some b ∧ b ≠ slash := by
  obtain ⟨c, rest, rfl⟩ := List.exists_cons_of_ne_nil hne
  have hc := h c List.mem_cons_self
  obtain ⟨b, t, rfl⟩ := List.exists_cons_of_ne_nil hc.ne_nil
  refine ⟨b, ?_, ne_of_mem_of_not_mem List.mem_cons_self (slash_not_mem_component hc)⟩
  cases rest <;> simp [joined]

/-- `..` stands in a name below the root only in the root or in a component. -/
theorem parent_infix_iff (root : Bytes) (components : List Bytes) :
    str ".." <:+: root ++ slash :: joined components ↔
      str ".." <:+: root ∨ ∃ c ∈ components, str ".." <:+: c := by
  rw [LexPath.infix_append_sep_iff (by decide), joined,
    LexPath.infix_intercalate_iff (by decide) (by decide)]

/-- `set_root` neither adds a `..` nor removes one. -/
theorem parent_infix_setRoot_iff (root : Bytes) :
    str ".." <:+: setRoot root ↔ str ".." <:+: root := by
  rcases setRoot_cases root with heq | ⟨heq, -⟩
  · rw [heq]
  · conv_rhs => rw [heq]
    rw [LexPath.infix_append_sep_iff (by decide)]
    simp [show ¬str ".." <:+: [] by decide]

/-! ## What the request is mapped to -/

/-- The file name of the request for these components. -/
theorem filenameOf_joined (layer : StaticFile) {components : List Bytes} (hne : components ≠ [])
    (h : ∀ c ∈ components, IsComponent c) {request : Request}
    (hpath : request.path = slash :: joined components) :
    layer.filenameOf request = layer.root ++ slash :: joined components := by
  obtain ⟨b, hlast, hb⟩ := exists_getLast?_joined hne h
  have hslash : request.path.getLast? ≠ some slash := by
    rw [hpath, List.getLast?_cons, hlast]
    intro heq
    exact hb (Option.some.inj heq)
  rw [filenameOf_eq, trimmedPath, if_neg hslash, hpath]

/-- A separator at the end of the root does not change which file it is. -/
theorem squeeze_setRoot_append (root t : Bytes) :
    LexPath.squeeze slash (setRoot root ++ slash :: t) =
      LexPath.squeeze slash (root ++ slash :: t) := by
  rcases setRoot_cases root with heq | ⟨heq, -⟩
  · rw [heq]
  · conv_rhs => rw [heq]
    rw [List.append_assoc, List.singleton_append, LexPath.squeeze_append_sep_sep]

/-- A readable file is no directory. -/
theorem isDirectoryAt_of_readableFile {fs : FileSystem} {name content : Bytes}
    (h : fs.ReadableFile (cstr name) content) : isDirectoryAt fs name = false := by
  obtain ⟨-, ⟨status, hstat, hregular⟩, -⟩ := h
  have hmode : isDirMode status = false := by
    have hreg : status.stMode &&& 0o170000 = 0o100000 := beq_iff_eq.mp hregular
    rw [isDirMode, hreg]
    rfl
  rw [isDirectoryAt, hstat]
  simp [hmode]

/-! ## When a file is served -/

/-- The file system in which every name is that of a regular file, with the name as its content. -/
def echo : FileSystem :=
  FileSystem.ignoringRuns
    { access := fun _ => true
      stat := fun _ => some ⟨0o100644, 0, 0⟩
      ifstream := some
      opendir := fun _ => none }

/-- Every name is that of a readable file in `echo`, with the squeezed name as its content. -/
theorem readableFile_echo (name : Bytes) :
    echo.ReadableFile name (LexPath.squeeze slash name) :=
  ⟨rfl, ⟨_, rfl, rfl⟩, rfl⟩

variable {mgz : Mgz} {mem : Memory} {allow : Bool} {root : Bytes} {components : List Bytes}

/-- Where every name is that of a file, serving a file requires a name that passes the test for
`..`, and that is the name of this file. -/
theorem name_of_servesBelow (hne : components ≠ []) (hcomponents : ∀ c ∈ components, IsComponent c)
    (h : ServesBelow mgz mem allow root components) :
    ¬str ".." <:+: setRoot root ++ slash :: joined components ∧
      LexPath.squeeze slash (cstr (setRoot root ++ slash :: joined components)) =
        LexPath.squeeze slash (below (cstr root) components) := by
  let response : Response := { code := 0, version := .http_1_1, body := [], header := .empty }
  let env := Env.ofRequest mem (.get (slash :: joined components) rfl)
  have hname : (StaticFile.new allow root).filenameOf env.request =
      setRoot root ++ slash :: joined components := filenameOf_joined _ hne hcomponents rfl
  obtain ⟨answer, hanswer, hcode, hbody⟩ := h echo _ (FileSystem.ignoresRuns_ignoringRuns _)
    (readableFile_echo _) (some fun _ => pure response) env response rfl rfl (Or.inl rfl)
  have hvalue : (getResponse (some fun _ => pure response) env).value echo = .ok response := rfl
  rw [value_staticFile, hvalue, Traced.ok_bind, Except.ok.injEq] at hanswer
  by_cases hresolves : (StaticFile.new allow root).Resolves echo env.request
  · rw [if_pos ⟨Or.inl rfl, hresolves⟩] at hanswer
    obtain ⟨hparent, -⟩ := (existsAt_iff echo).mp hresolves.1
    have hfile := isDirectoryAt_of_readableFile (readableFile_echo
      (cstr ((StaticFile.new allow root).filenameOf env.request)))
    rw [← hanswer] at hbody
    have hpage : ((StaticFile.new allow root).page mgz mem echo env.request).2 =
        LexPath.squeeze slash (cstr ((StaticFile.new allow root).filenameOf env.request)) := by
      rw [page, hfile]
      rfl
    rw [hname] at hparent hpage
    exact ⟨hparent, hpage.symm.trans hbody⟩
  -- the response of the inner middleware is handed on, with its code
  · rw [if_neg fun hand => hresolves hand.2] at hanswer
    rw [← hanswer] at hcode
    exact absurd hcode (by decide)

/-- What a NUL in the root cuts off does not reach the system. -/
theorem cstr_setRoot_append (hnul : NUL ∈ root) (t : Bytes) :
    cstr (setRoot root ++ t) = cstr root := by
  rcases setRoot_cases root with heq | ⟨heq, -⟩
  · rw [heq, cstr_append_of_nul_mem hnul]
  · have hnul' : NUL ∈ setRoot root := by
      rw [heq, List.mem_append, List.mem_singleton] at hnul
      exact hnul.resolve_right (by decide)
    conv_rhs => rw [heq]
    rw [cstr_append_of_nul_mem hnul', cstr_append_of_nul_mem hnul']

/-- A file below the root is not the root. -/
theorem squeeze_below_ne (hne : components ≠ []) (hcomponents : ∀ c ∈ components, IsComponent c)
    (root : Bytes) :
    LexPath.squeeze slash root ≠ LexPath.squeeze slash (below root components) := by
  intro h
  obtain ⟨b, hhead, hb⟩ := joined_head? hne hcomponents
  have hmem : b ∈ (joined components).filter (· ≠ slash) :=
    List.mem_filter.mpr ⟨List.mem_of_head? hhead, by simpa using hb⟩
  have hpos := List.length_pos_of_mem hmem
  -- both have the same characters, separators aside
  have hchars := congrArg (List.filter (· ≠ slash)) h
  rw [LexPath.filter_squeeze, LexPath.filter_squeeze] at hchars
  have hlength := congrArg List.length hchars
  rw [below] at hlength
  split at hlength
  · rename_i hroot
    rw [hroot, List.filter_nil, List.length_nil] at hlength
    omega
  · rw [List.filter_append, List.filter_cons_of_neg (by simp), List.length_append] at hlength
    omega

/-- The files with these components below the root are served exactly when the root is not empty and
has no NUL, and `..` stands neither in the root nor in a component. -/
theorem servesBelow_iff (hne : components ≠ []) (hcomponents : ∀ c ∈ components, IsComponent c) :
    ServesBelow mgz mem allow root components ↔
      (root ≠ [] ∧ NUL ∉ root) ∧ ¬str ".." <:+: root ∧ ∀ c ∈ components, ¬str ".." <:+: c := by
  have hjoined : NUL ∉ slash :: joined components := by
    simp [nul_not_mem_joined hcomponents, show NUL ≠ slash by decide]
  constructor
  · intro h
    obtain ⟨hparent, hsame⟩ := name_of_servesBelow hne hcomponents h
    rw [parent_infix_iff, parent_infix_setRoot_iff, not_or] at hparent
    refine ⟨⟨?_, ?_⟩, hparent.1, fun c hc hsub => hparent.2 ⟨c, hc, hsub⟩⟩
    -- the system would be asked for an absolute name
    · rintro rfl
      have hroot : setRoot [] ++ slash :: joined components = slash :: joined components := rfl
      rw [hroot, cstr_of_nul_not_mem hjoined] at hsame
      have hheads := congrArg List.head? hsame
      rw [LexPath.head?_squeeze, LexPath.head?_squeeze] at hheads
      obtain ⟨b, hhead, hb⟩ := joined_head? hne hcomponents
      exact hb (Option.some.inj (hhead.symm.trans hheads.symm))
    -- the system would be asked for the root
    · intro hnul
      rw [cstr_setRoot_append hnul] at hsame
      exact squeeze_below_ne hne hcomponents _ hsame
  · rintro ⟨⟨hroot, hnul⟩, hparent, hparents⟩ fs content hruns hfile app_ env response hpath
      hresponse hcode
    have hname : (StaticFile.new allow root).filenameOf env.request =
        setRoot root ++ slash :: joined components := filenameOf_joined _ hne hcomponents hpath
    have hcut : cstr (setRoot root ++ slash :: joined components) =
        setRoot root ++ slash :: joined components := by
      apply cstr_of_nul_not_mem
      rw [List.mem_append, not_or]
      exact ⟨nul_not_mem_setRoot hnul, hjoined⟩
    rw [cstr_of_nul_not_mem hnul, below, if_neg hroot] at hfile
    have hreadable := hfile.congr hruns (squeeze_setRoot_append root (joined components)).symm
    rw [← hcut, ← hname] at hreadable
    have hexists : existsAt fs ((StaticFile.new allow root).filenameOf env.request) = true := by
      refine (existsAt_iff fs).mpr ⟨?_, ?_, hreadable.access⟩
      · rw [hname, parent_infix_iff, parent_infix_setRoot_iff, not_or]
        exact ⟨hparent, fun ⟨c, hc, hsub⟩ => hparents c hc hsub⟩
      · simp [hname]
    exact servesFile_of_existsAt _ mgz mem fs hexists content
      (isDirectoryAt_of_readableFile hreadable) hreadable.ifstream app_ env response rfl hresponse
      hcode

/-- The file `b.txt` in the directory `a`. -/
theorem servesBelow_sample :
    ServesBelow .plain .zero false (str "www/") [str "a", str "b.txt"] :=
  (servesBelow_iff (by decide) (by decide +kernel)).mpr (by decide)

/-- The file `a..b` in the root is not served, although it can be read. -/
theorem servesBelow_fails :
    IsComponent (str "a..b") ∧
      (FileSystem.ofFiles [(str "www/a..b", str "content")]).ignoringRuns.ReadableFile
        (below (str "www") [str "a..b"]) (str "content") ∧
      ((staticFile .plain .zero (.new false (str "www")) none
        (.ofRequest .zero (.get (str "/a..b") rfl))).value
          (FileSystem.ofFiles [(str "www/a..b", str "content")]).ignoringRuns).map Response.code =
        .ok 0 ∧
      ¬ServesBelow .plain .zero false (str "www") [str "a..b"] := by
  have hfile : (FileSystem.ofFiles [(str "www/a..b", str "content")]).ignoringRuns.ReadableFile
      (below (str "www") [str "a..b"]) (str "content") := ⟨by decide, ⟨_, rfl, rfl⟩, by decide⟩
  have hcode : ((staticFile .plain .zero (.new false (str "www")) none
      (.ofRequest .zero (.get (str "/a..b") rfl))).value
        (FileSystem.ofFiles [(str "www/a..b", str "content")]).ignoringRuns).map Response.code =
      .ok 0 := rfl
  refine ⟨by decide +kernel, hfile, hcode, fun h => ?_⟩
  obtain ⟨answer, hanswer, h200, -⟩ := h _ _ (FileSystem.ignoresRuns_ignoringRuns _) hfile none
    (.ofRequest .zero (.get (str "/a..b") rfl)) _ rfl rfl (Or.inl rfl)
  rw [hanswer] at hcode
  exact absurd (h200.symm.trans (Except.ok.inj hcode)) (by decide)

end Middleware.StaticFile

end Lhs
