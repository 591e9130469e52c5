import LhsServer.Correctness.Message
import LhsServer.Correctness.StaticContent
import LhsServer.Correctness.Totality

/-!
# The links of a directory listing

The index of a directory has a link for each entry. A client that follows one sends its target as a
request, without encoding it first; whether that leads to the entry depends on the request parser,
on the mapping of paths to file names and on the test for `..`.

- `hrefOf`, `exists_entryRow`: the target of a link, and where it stands in the index;
- `mem_path`, `exists_parse_linkRequest`: the characters of an accepted path, and the targets that
  are accepted as they are;
- `exists_parse_href`: such a target is mapped to the name that was inspected for the entry;
- `linkLeads_iff`: when the link of an entry leads to it.
-/

namespace Lhs.Middleware.StaticFile

open Bytes Http Request

variable (self : StaticFile)

/-! ## Targets -/

/-- `sys_file`: the name that is inspected for an entry. -/
def sysFile (file : Bytes) (entry : EntryName) : Bytes := file ++ fileSeparator :: entry.1

/-- The target of the link of an entry, `url.c_str()`. -/
def hrefOf (file : Bytes) (entry : EntryName) : Bytes :=
  cstr (file.drop self.root.length ++ str "/" ++ entry.1)

/-- The row of an entry, up to the target of its link. -/
theorem printf_indexFile (image target : Bytes) (args : List FormatArg) :
    printf indexFile (.s image :: .s target :: args) =
      str "      <tr><td><img src=\"" ++ image ++ str "\" /></td><td>" ++ str "<a href=\"" ++
        target ++ str "\">" ++ printf (str "%s</a></td><td>%s</td><td>%s</td></tr>") args := by
  have hindex : indexFile =
      str "      <tr><td><img src=\"" ++ 37 :: 115 :: (str "\" /></td><td>" ++ str "<a href=\"" ++
        37 :: 115 :: (str "\">" ++ str "%s</a></td><td>%s</td><td>%s</td></tr>")) := by
    rw [indexFile]
    repeat rw [str_ofList]
    decide +kernel
  rw [hindex, printf_append_s (by decide), printf_append_s (by decide), printf_append (by decide)]
  simp only [List.append_assoc]

/-- The row of an entry has a link to this target in it. -/
theorem exists_entryRow {mgz : Mgz} (hformat : mgz.FormatsAsPrintf) (mem : Memory) (fs : FileSystem)
    (file : Bytes) {entry : EntryName} (hentry : ¬(entry.1 = str "." ∨ entry.1 = str "..")) :
    ∃ before after, self.entryRow mgz mem fs file entry =
      before ++ str "<a href=\"" ++ self.hrefOf file entry ++ str "\">" ++ after := by
  simp only [entryRow, if_neg hentry]
  rw [hformat _ _ (by simp), printf_indexFile]
  exact ⟨_, _, rfl⟩

/-- The name of a file, from a path with its `/`: one `/` at the end is left out. -/
theorem getFilename_drop_one {path : Bytes} (h : path.head? = some slash) :
    self.getFilename (path.drop 1) =
      self.root ++ if path.getLast? = some slash then path.dropLast else path := by
  obtain ⟨t, rfl⟩ := List.head?_eq_some_iff.mp h
  have hne : slash :: t ≠ [] := List.cons_ne_nil _ _
  rw [List.drop_succ_cons, List.drop_zero]
  simp only [getFilename, replace_slash]
  rw [fileSeparator, List.getLast?_append_of_ne_nil _ hne]
  split
  · rw [List.dropLast_append_of_ne_nil hne]
  · rfl

/-- The path of a request, without a `/` at its end. -/
def trimmedPath (request : Request) : Bytes :=
  if request.path.getLast? = some slash then request.path.dropLast else request.path

/-- The file name of a request is the root and its path, without a slash at the end. -/
theorem filenameOf_eq (request : Request) :
    self.filenameOf request = self.root ++ trimmedPath request :=
  self.getFilename_drop_one request.path_head

/-- But for a `/`, the path has the characters of the file name behind the root. -/
theorem mem_trimmedPath_iff {request : Request} {c : UInt8} (hc : c ≠ slash) :
    c ∈ trimmedPath request ↔ c ∈ request.path := by
  rw [trimmedPath]
  split
  · rename_i h
    obtain ⟨t, ht⟩ := List.getLast?_eq_some_iff.mp h
    rw [ht, List.dropLast_concat, List.mem_append, List.mem_singleton, or_iff_left hc]
  · rfl

/-- The path to an entry begins with a slash. -/
theorem head?_trimmedPath_append (request : Request) (s : Bytes) :
    (trimmedPath request ++ slash :: s).head? = some slash := by
  obtain ⟨t, ht⟩ := List.head?_eq_some_iff.mp request.path_head
  rw [trimmedPath, ht]
  split
  · cases t with
    | nil => rfl
    | cons c t => rfl
  · rfl

/-! ## Requests -/

/-- The request that is sent for a target. -/
def linkRequest (url : Bytes) : Bytes := str "GET " ++ url ++ str " HTTP/1.1" ++ CRLF ++ CRLF

section Parsed

variable {mgz : Mgz} (hsplit : mgz.SplitsPieces) {mem : Memory}

include hsplit

/-- The characters of the path of an accepted request: the input has them, and none of them delimits
a part of it. -/
theorem mem_path {data : Bytes} {r : Request} (h : parse mgz mem data = .ok r) {c : UInt8}
    (hc : c ∈ r.path) : c ∈ data ∧ c ≠ SP ∧ c ≠ question ∧ c ≠ LF := by
  obtain ⟨-, init, headers, rest, -, -, hinit, -⟩ := (parse_eq_ok_iff mgz mem data r).mp h
  obtain ⟨method, version, -, -, -, htarget⟩ := parseInit_ok hinit
  have hpath : untilQuestion r.uri = r.path := by
    rw [← path_parseParams hsplit, htarget]
  rw [← hpath] at hc
  have hquestion : c ≠ question := by simpa using List.mem_takeWhile_imp hc
  obtain ⟨hdata, hsp, hlf⟩ := mem_uri hsplit h ((List.takeWhile_prefix _).mem hc)
  exact ⟨hdata, hsp, hquestion, hlf⟩

/-- A target without delimiters is accepted, and is the path of the request. -/
theorem exists_parse_linkRequest (mem : Memory) {url : Bytes} (hhead : url.head? = some slash)
    (hplain : SP ∉ url ∧ question ∉ url ∧ LF ∉ url) :
    ∃ r, parse mgz mem (linkRequest url) = .ok r ∧ r.path = url := by
  obtain ⟨hsp, hquestion, hlf⟩ := hplain
  have hfirst : Eol.crlf.Ends (str "GET " ++ url ++ str " HTTP/1.1") := by
    refine ⟨?_, by rintro ⟨⟩⟩
    simp only [List.mem_append, not_or]
    exact ⟨⟨by decide, hlf⟩, by decide⟩
  let m := Message.ofTexts hfirst (List.forall_mem_nil _) []
  have hbytes : m.bytes = linkRequest url := by
    rw [Message.bytes_ofTexts, linkRequest, List.flatMap_nil, List.append_nil, List.append_nil]
    rfl
  have hpieces : m.requestLine.text.splitOn SP = [str "GET", url, str "HTTP/1.1"] := by
    have htext : m.requestLine.text = str "GET" ++ SP :: (url ++ SP :: str "HTTP/1.1") := by
      show str "GET " ++ url ++ str " HTTP/1.1" = _
      simp [str, SP]
    rw [htext, List.splitOn_append_cons_self_of_not_mem (by decide),
      List.splitOn_append_cons_self_of_not_mem hsp, List.splitOn_eq_singleton (by decide)]
  obtain ⟨line, hinit⟩ := (parseInit_ok_iff hsplit m.requestLine.text).mpr
    ⟨str "GET", url, str "HTTP/1.1", hpieces, hhead⟩
  have hsafe : SafeAccess mem m.bytes :=
    (m.safeAccess_iff_of_crlf mem (Message.eol_ofTexts hfirst _ [])).mpr fun hnil =>
      absurd hnil List.not_mem_nil
  refine ⟨_, hbytes ▸ m.parse_message mgz hsafe hinit, ?_⟩
  obtain ⟨method, version, hwords, -, -, htarget⟩ := parseInit_ok hinit
  rw [hsplit, hpieces] at hwords
  have huri : line.uri = url := (List.cons.inj (List.cons.inj hwords).2).1.symm
  rw [huri, parseParams_of_not_mem hsplit hquestion] at htarget
  exact (congrArg Prod.fst htarget).symm

end Parsed

/-! ## Following a link -/

variable (mgz : Mgz) (mem : Memory) (fs : FileSystem)

/-- The file of the request is a directory that is listed, with this entry. -/
structure Lists (layer : StaticFile) (request : Request) (entry : EntryName) : Prop where
  isDirectory : isDirectoryAt fs (layer.filenameOf request) = true
  allowExplore : layer.allowExplore = true
  mem : ∃ entries, fs.opendir (cstr (layer.filenameOf request)) = some entries ∧ entry ∈ entries
  listed : ¬(entry.1 = str "." ∨ entry.1 = str "..")

/-- The layer answers the request with 200 and the bytes of its file, if that is a readable file and
the inner middleware has not answered it. -/
def ServesFile (request : Request) : Prop :=
  ∀ content, isDirectoryAt fs (self.filenameOf request) = false →
    fs.ifstream (cstr (self.filenameOf request)) = some content →
    ∀ app_ env response, env.request = request →
      (getResponse app_ env).value fs = .ok response → (response.code = 0 ∨ response.code = 404) →
      ∃ answer, (staticFile mgz mem self app_ env).value fs = .ok answer ∧ answer.code = 200 ∧
        answer.body = content

/-- The link of an entry leads to it: the request for its target is accepted and mapped to the name
that was inspected for the entry, and the name exists, so that a file is served. -/
def LinkLeads (file : Bytes) (entry : EntryName) : Prop :=
  ∃ r, parse mgz mem (linkRequest (self.hrefOf file entry)) = .ok r ∧
    self.filenameOf r = sysFile file entry ∧ existsAt fs (sysFile file entry) = true ∧
    self.ServesFile mgz mem fs r

/-- The index of a directory that is listed has the link of each entry in it. -/
theorem Lists.exists_link {fs : FileSystem} {layer : StaticFile} {request : Request}
    {entry : EntryName} (h : Lists fs layer request entry) {mgz : Mgz}
    (hformat : mgz.FormatsAsPrintf) (mem : Memory) :
    ∃ before after, (layer.getDirectoryContent mgz mem (layer.filenameOf request)).value fs =
      .ok (before ++ str "<a href=\"" ++ layer.hrefOf (layer.filenameOf request) entry ++
        str "\">" ++ after) := by
  obtain ⟨entries, hopen, hmem⟩ := h.mem
  obtain ⟨front, back, rfl⟩ := List.append_of_mem hmem
  obtain ⟨head, hhead⟩ : ∃ head, layer.indexHead mgz (layer.filenameOf request) = .ok head :=
    layer.indexHead_getFilename mgz (request.path.drop 1)
  obtain ⟨before, after, hrow⟩ :=
    layer.exists_entryRow hformat mem fs (layer.filenameOf request) h.listed
  refine ⟨head ++ front.flatMap (layer.entryRow mgz mem fs (layer.filenameOf request)) ++ before,
    after ++ back.flatMap (layer.entryRow mgz mem fs (layer.filenameOf request)) ++ indexFooter, ?_⟩
  rw [layer.value_getDirectoryContent mgz mem fs hhead, hopen]
  simp only [List.flatMap_append, List.flatMap_cons, hrow, List.append_assoc]

/-- A file that exists is served. -/
theorem servesFile_of_existsAt {request : Request}
    (h : existsAt fs (self.filenameOf request) = true) : self.ServesFile mgz mem fs request := by
  rintro content hfile hcontent app_ env response rfl hresponse hcode
  have hresolves : self.Resolves fs env.request := ⟨h, Or.inl hfile⟩
  have hpage : (self.page mgz mem fs env.request).2 = content := by
    simp [page, hfile, hcontent]
  refine ⟨served (self.page mgz mem fs env.request) response, ?_, rfl, hpage⟩
  rw [value_staticFile, hresponse]
  exact congrArg Except.ok (if_pos ⟨hcode, hresolves⟩)

/-- What is behind the root in the name of an entry, `url`, is the path that leads to it. -/
theorem sysFile_filenameOf (request : Request) (entry : EntryName) :
    sysFile (self.filenameOf request) entry =
      self.root ++ (trimmedPath request ++ slash :: entry.1) := by
  rw [sysFile, filenameOf_eq, List.append_assoc, fileSeparator]

/-- The target of the link of an entry, up to a NUL in the path. -/
theorem hrefOf_filenameOf (request : Request) (entry : EntryName) :
    self.hrefOf (self.filenameOf request) entry =
      cstr (trimmedPath request ++ slash :: entry.1) := by
  rw [hrefOf, filenameOf_eq, List.drop_left, List.append_assoc]
  rfl

/-- A name with `..` in it does not exist. -/
theorem existsAt_iff {filename : Bytes} :
    existsAt fs filename = true ↔
      ¬str ".." <:+: filename ∧ filename ≠ [] ∧ fs.access (cstr filename) = true := by
  simp [existsAt]

/-- A directory exists. -/
theorem existsAt_of_isDirectoryAt {filename : Bytes} (h : isDirectoryAt fs filename = true) :
    existsAt fs filename = true := by
  rw [isDirectoryAt] at h
  split at h
  · cases h
  · exact (Bool.and_eq_true_iff.mp h).1

/-- The request for a C string has no NUL in it. -/
theorem nul_not_mem_linkRequest (s : Bytes) : NUL ∉ linkRequest (cstr s) := by
  simp only [linkRequest, List.mem_append, not_or]
  exact ⟨⟨⟨⟨by decide, nul_not_mem_cstr s⟩, by decide⟩, by decide⟩, by decide⟩

variable {self mgz mem fs} (hsplit : mgz.SplitsPieces)

include hsplit

/-- A link leads to its entry only if no character of the target delimits a part of a request, and
nothing else keeps the name from being found. -/
theorem plain_of_linkLeads {request : Request} {entry : EntryName}
    (h : self.LinkLeads mgz mem fs (self.filenameOf request) entry) :
    (SP ∉ entry.1 ∧ question ∉ entry.1 ∧ LF ∉ entry.1 ∧ ¬str ".." <:+: entry.1) ∧
      NUL ∉ request.path ∧
      fs.access (cstr (sysFile (self.filenameOf request) entry)) = true := by
  obtain ⟨r, hr, hname, hexists, -⟩ := h
  -- the path of the second request is what is behind the root in the name
  have hpath : trimmedPath r = trimmedPath request ++ slash :: entry.1 := by
    rw [filenameOf_eq, sysFile_filenameOf] at hname
    exact List.append_cancel_left hname
  have hchars : ∀ c ∈ trimmedPath request ++ slash :: entry.1, c ≠ slash →
      c ∈ linkRequest (self.hrefOf (self.filenameOf request) entry) ∧
        c ≠ SP ∧ c ≠ question ∧ c ≠ LF := by
    intro c hc hne
    rw [← hpath, mem_trimmedPath_iff hne] at hc
    exact mem_path hsplit hr hc
  have hentry : ∀ c ∈ entry.1, c ≠ SP ∧ c ≠ question ∧ c ≠ LF := by
    intro c hc
    have hne : c ≠ slash := ne_of_mem_of_not_mem hc entry.2.2.1
    exact (hchars c (List.mem_append_right _ (List.mem_cons_of_mem _ hc)) hne).2
  obtain ⟨hparent, -, haccess⟩ := (existsAt_iff fs).mp hexists
  refine ⟨⟨fun h => ?_, fun h => ?_, fun h => ?_, fun h => ?_⟩, fun h => ?_, haccess⟩
  · exact (hentry SP h).1 rfl
  · exact (hentry question h).2.1 rfl
  · exact (hentry LF h).2.2 rfl
  · exact hparent (h.trans ((List.suffix_cons _ _).trans (List.suffix_append _ _)).isInfix)
  · have hne : NUL ≠ slash := by decide
    rw [← mem_trimmedPath_iff hne] at h
    exact nul_not_mem_linkRequest _ (hchars NUL (List.mem_append_left _ h) hne).1

variable (self) in
/-- The target of a link without delimiters is the path to the entry, and the request for it is
mapped to the name that was inspected. -/
theorem exists_parse_href {data : Bytes} {request : Request}
    (hparse : parse mgz mem data = .ok request) {entry : EntryName}
    (hentry : SP ∉ entry.1 ∧ question ∉ entry.1 ∧ LF ∉ entry.1) (hnul : NUL ∉ request.path) :
    ∃ r, parse mgz mem (linkRequest (self.hrefOf (self.filenameOf request) entry)) = .ok r ∧
      self.filenameOf r = sysFile (self.filenameOf request) entry := by
  obtain ⟨hne, hentrySlash, hentryNul⟩ := entry.2
  have hslash : ∀ c ∈ [SP, question, LF, NUL], c ≠ slash := by decide +kernel
  have hplain : ∀ c ∈ [SP, question, LF, NUL], c ∉ request.path → c ∉ entry.1 →
      c ∉ trimmedPath request ++ slash :: entry.1 := by
    intro c hc hcpath hcentry
    rw [← mem_trimmedPath_iff (hslash c hc)] at hcpath
    simp [hcpath, hcentry, hslash c hc]
  have hpath : ∀ c ∈ request.path, c ≠ SP ∧ c ≠ question ∧ c ≠ LF :=
    fun c hc => (mem_path hsplit hparse hc).2
  -- nothing is cut off the target
  have hhref : self.hrefOf (self.filenameOf request) entry =
      trimmedPath request ++ slash :: entry.1 := by
    rw [hrefOf_filenameOf, cstr_of_nul_not_mem (hplain NUL (by decide) hnul hentryNul)]
  obtain ⟨r, hr, hrpath⟩ := exists_parse_linkRequest hsplit mem
    (head?_trimmedPath_append request entry.1)
    ⟨hplain SP (by decide) (fun h => (hpath SP h).1 rfl) hentry.1,
      hplain question (by decide) (fun h => (hpath question h).2.1 rfl) hentry.2.1,
      hplain LF (by decide) (fun h => (hpath LF h).2.2 rfl) hentry.2.2⟩
  refine ⟨r, by rw [hhref, hr], ?_⟩
  have hlast : r.path.getLast? ≠ some slash := by
    intro hlast
    rw [hrpath, List.getLast?_append_of_ne_nil _ (List.cons_ne_nil _ _),
      List.getLast?_cons_of_ne_nil hne] at hlast
    exact hentrySlash (List.mem_of_getLast? hlast)
  rw [filenameOf_eq, trimmedPath, if_neg hlast, hrpath, sysFile_filenameOf]

/-- The index of a directory has a link with this target for each entry. It leads to the entry
exactly when its name has no space, no `?`, no LF and no `..` in it, the path of the directory has
no NUL, and the entry exists. -/
theorem linkLeads_iff {data : Bytes} {request : Request}
    (hparse : parse mgz mem data = .ok request) {entry : EntryName}
    (hlists : Lists fs self request entry) :
    (mgz.FormatsAsPrintf → ∃ before after,
      (self.getDirectoryContent mgz mem (self.filenameOf request)).value fs =
        .ok (before ++ str "<a href=\"" ++ self.hrefOf (self.filenameOf request) entry ++
          str "\">" ++ after)) ∧
    (self.LinkLeads mgz mem fs (self.filenameOf request) entry ↔
      (SP ∉ entry.1 ∧ question ∉ entry.1 ∧ LF ∉ entry.1 ∧ ¬str ".." <:+: entry.1) ∧
        NUL ∉ request.path ∧
        fs.access (cstr (sysFile (self.filenameOf request) entry)) = true) := by
  refine ⟨fun hformat => hlists.exists_link hformat mem, ?_⟩
  constructor
  · exact plain_of_linkLeads hsplit
  · rintro ⟨⟨hsp, hquestion, hlf, hparent⟩, hnul, haccess⟩
    obtain ⟨r, hr, hname⟩ :=
      self.exists_parse_href hsplit hparse ⟨hsp, hquestion, hlf⟩ hnul
    have hexists : existsAt fs (sysFile (self.filenameOf request) entry) = true := by
      obtain ⟨hdirectory, -⟩ := (existsAt_iff fs).mp
        (existsAt_of_isDirectoryAt fs hlists.isDirectory)
      refine (existsAt_iff fs).mpr ⟨?_, by simp [sysFile], haccess⟩
      rw [sysFile, LexPath.infix_append_sep_iff (by decide)]
      exact not_or.mpr ⟨hdirectory, hparent⟩
    exact ⟨r, hr, hname, hexists, self.servesFile_of_existsAt mgz mem fs (hname ▸ hexists)⟩

omit hsplit

/-! ## A directory with one entry -/

/-- A directory `www` with one entry, a readable file. -/
def oneEntry (entry : EntryName) (content : Bytes) : FileSystem where
  access path := path = str "www" ∨ path = str "www/" ++ entry.1
  stat path :=
    if path = str "www" then some ⟨0o040755, 4096, 0⟩
    else if path = str "www/" ++ entry.1 then some ⟨0o100644, content.length, 0⟩
    else none
  ifstream path := if path = str "www/" ++ entry.1 then some content else none
  opendir path := if path = str "www" then some [entry] else none

/-- The layer of `www/`, with exploration allowed. -/
def exploring : StaticFile := .new true (str "www/")

theorem filenameOf_exploring {request : Request} (hpath : request.path = str "/") :
    exploring.filenameOf request = str "www" := by
  rw [filenameOf, hpath]
  decide

theorem lists_oneEntry {entry : EntryName} (content : Bytes)
    (h : ¬(entry.1 = str "." ∨ entry.1 = str "..")) {request : Request}
    (hpath : request.path = str "/") :
    Lists (oneEntry entry content) exploring request entry := by
  have hcut : cstr (str "www") = str "www" := by decide
  have hparent : ¬str ".." <:+: str "www" := by decide
  have hne : str "www" ≠ [] := by decide
  refine ⟨?_, rfl, ?_, h⟩
  · rw [filenameOf_exploring hpath]
    simp [isDirectoryAt, existsAt, oneEntry, hcut, hparent, hne, isDirMode]
  · rw [filenameOf_exploring hpath]
    exact ⟨[entry], rfl, List.mem_singleton_self entry⟩

theorem access_oneEntry (entry : EntryName) (content : Bytes) {request : Request}
    (hpath : request.path = str "/") :
    (oneEntry entry content).access (cstr (sysFile (exploring.filenameOf request) entry)) =
      true := by
  have hname : sysFile (str "www") entry = str "www/" ++ entry.1 := rfl
  have hnul : NUL ∉ str "www/" ++ entry.1 := by
    rw [List.mem_append, not_or]
    exact ⟨by decide, entry.2.2.2⟩
  rw [filenameOf_exploring hpath, hname, cstr_of_nul_not_mem hnul]
  simp [oneEntry]

/-- The file `a.txt` in the index of `/`. -/
theorem linkLeads_sample :
    ∃ request, parse .plain .zero (linkRequest (str "/")) = .ok request ∧
      (∃ before after, (exploring.getDirectoryContent .plain .zero
          (exploring.filenameOf request)).value
            (oneEntry ⟨str "a.txt", by decide⟩ (str "content")) =
        .ok (before ++ str "<a href=\"" ++ exploring.hrefOf (exploring.filenameOf request)
          ⟨str "a.txt", by decide⟩ ++ str "\">" ++ after)) ∧
      exploring.LinkLeads .plain .zero (oneEntry ⟨str "a.txt", by decide⟩ (str "content"))
        (exploring.filenameOf request) ⟨str "a.txt", by decide⟩ := by
  obtain ⟨request, hparse, hpath⟩ :=
    exists_parse_linkRequest Mgz.plain_splitsPieces .zero
      (show (str "/").head? = some slash from rfl) (by decide)
  have hnul : NUL ∉ request.path := by
    rw [hpath]
    decide
  have hlists : Lists (oneEntry ⟨str "a.txt", by decide⟩ (str "content")) exploring request
      ⟨str "a.txt", by decide⟩ := lists_oneEntry _ (by decide) hpath
  obtain ⟨hlink, hleads⟩ := linkLeads_iff Mgz.plain_splitsPieces hparse hlists
  exact ⟨request, hparse, hlink Mgz.plain_formatsAsPrintf,
    hleads.mpr ⟨by decide, hnul, access_oneEntry _ _ hpath⟩⟩

/-- The link of the file `a b` in the index of `/` does not lead to it. -/
theorem linkLeads_fails :
    ∃ request, parse .plain .zero (linkRequest (str "/")) = .ok request ∧
      Lists (oneEntry ⟨str "a b", by decide⟩ (str "content")) exploring request
        ⟨str "a b", by decide⟩ ∧
      (oneEntry ⟨str "a b", by decide⟩ (str "content")).access (str "www/a b") = true ∧
      ¬exploring.LinkLeads .plain .zero (oneEntry ⟨str "a b", by decide⟩ (str "content"))
        (exploring.filenameOf request) ⟨str "a b", by decide⟩ := by
  obtain ⟨request, hparse, hpath⟩ :=
    exists_parse_linkRequest Mgz.plain_splitsPieces .zero
      (show (str "/").head? = some slash from rfl) (by decide)
  refine ⟨request, hparse, lists_oneEntry _ (by decide) hpath, by decide, fun h => ?_⟩
  obtain ⟨⟨hsp, -⟩, -⟩ := plain_of_linkLeads Mgz.plain_splitsPieces h
  exact hsp (by decide)

end Lhs.Middleware.StaticFile
