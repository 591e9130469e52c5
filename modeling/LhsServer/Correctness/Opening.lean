import LhsServer.Correctness.StaticContent

/-!
# Answers and the files behind them

A `static_file` layer sets the code 200 before it opens the file or the directory. Whether a name
can be opened does not follow from its existence.

- `Opens`, `HasContent`: the file of a request can be opened, and what a body consists of then;
- `AnswersRead`: an answer with code 200 has the content of what was opened, and where nothing was
  opened the response of the inner middleware is handed on;
- `answersRead_iff`: when that is so.
-/

namespace Lhs.Middleware

open Bytes Http

namespace StaticFile

variable (layer : StaticFile) (mgz : Mgz) (mem : Memory) (fs : FileSystem)

/-- The directory or the file of the request can be opened. -/
def Opens (request : Request) : Prop :=
  (if isDirectoryAt fs (layer.filenameOf request) then
    (fs.opendir (cstr (layer.filenameOf request))).isSome
  else (fs.ifstream (cstr (layer.filenameOf request))).isSome) = true

instance (request : Request) : Decidable (layer.Opens fs request) :=
  inferInstanceAs (Decidable (_ = true))

/-- The directory of the request has been opened and the body lists its entries, or the file has
been opened and the body is its content. -/
def HasContent (request : Request) (body : Bytes) : Prop :=
  if isDirectoryAt fs (layer.filenameOf request) then
    ∃ entries head, fs.opendir (cstr (layer.filenameOf request)) = some entries ∧
      layer.indexHead mgz (layer.filenameOf request) = .ok head ∧
      body = head ++ entries.flatMap (layer.entryRow mgz mem fs (layer.filenameOf request)) ++
        indexFooter
  else fs.ifstream (cstr (layer.filenameOf request)) = some body

/-- The answer in place of a response of the inner middleware: with code 200 it has the content of
what was opened, and the response is handed on where nothing can be opened. -/
def AnswersRead (app_ : Option Http.Middleware) (env : Env) (response : Response) : Prop :=
  ∃ answer, (staticFile mgz mem layer app_ env).value fs = .ok answer ∧
    (answer.code = 200 → layer.HasContent mgz mem fs env.request answer.body) ∧
    (¬layer.Opens fs env.request → answer = response)

variable {layer mgz mem fs}

/-- What can be opened is read in whole. -/
theorem hasContent_page {request : Request} (h : layer.Opens fs request) :
    layer.HasContent mgz mem fs request (layer.page mgz mem fs request).2 := by
  rw [Opens] at h
  rw [HasContent, page]
  split
  · rename_i hdir
    rw [if_pos hdir] at h
    obtain ⟨entries, hentries⟩ := Option.isSome_iff_exists.mp h
    obtain ⟨head, hhead⟩ := layer.indexHead_getFilename mgz (request.path.drop 1)
    have hindex := layer.value_getDirectoryContent mgz mem fs hhead
    rw [← filenameOf, hentries] at hindex
    refine ⟨entries, head, hentries, hhead, ?_⟩
    rw [hindex]
    rfl
  · rename_i hdir
    rw [if_neg hdir] at h
    obtain ⟨content, hcontent⟩ := Option.isSome_iff_exists.mp h
    rw [hcontent, Option.getD_some]

theorem opens_of_hasContent {request : Request} {body : Bytes}
    (h : layer.HasContent mgz mem fs request body) : layer.Opens fs request := by
  rw [HasContent] at h
  rw [Opens]
  split
  · rename_i hdir
    rw [if_pos hdir] at h
    obtain ⟨entries, -, hentries, -⟩ := h
    rw [hentries, Option.isSome_some]
  · rename_i hdir
    rw [if_neg hdir] at h
    rw [h, Option.isSome_some]

/-- The layer answers with what it has read exactly when it can open what it resolves. -/
theorem answersRead_iff {app_ : Option Http.Middleware} {env : Env} {response : Response}
    (hresponse : (getResponse app_ env).value fs = .ok response)
    (hcode : response.code = 0 ∨ response.code = 404) :
    layer.AnswersRead mgz mem fs app_ env response ↔
      (layer.Resolves fs env.request → layer.Opens fs env.request) := by
  have hvalue := value_staticFile mgz mem fs layer app_ env
  rw [hresponse, Traced.ok_bind] at hvalue
  by_cases hresolves : layer.Resolves fs env.request
  · rw [if_pos ⟨hcode, hresolves⟩] at hvalue
    constructor
    · rintro ⟨answer, hanswer, hcontent, -⟩ -
      -- the code is 200, whatever could be opened
      obtain rfl := Except.ok.inj (hvalue.symm.trans hanswer)
      exact opens_of_hasContent (hcontent rfl)
    · intro hopens
      exact ⟨_, hvalue, fun _ => hasContent_page (hopens hresolves),
        fun hnot => absurd (hopens hresolves) hnot⟩
  · rw [if_neg fun h => hresolves h.2] at hvalue
    refine ⟨fun _ h => absurd h hresolves,
      fun _ => ⟨response, hvalue, fun h200 => ?_, fun _ => rfl⟩⟩
    rcases hcode with h | h <;> exact absurd (h.symm.trans h200) (by decide)

/-- A file that exists and cannot be opened. -/
def unreadable (name : Bytes) : FileSystem where
  access path := path = name
  stat path := if path = name then some ⟨0o100000, 7, 0⟩ else none
  ifstream _ := none
  opendir _ := none

theorem answersRead_sample :
    (StaticFile.new false (str "www")).AnswersRead .plain .zero
      (.ofFiles [(str "www/a.txt", str "content")]) none
      (.ofRequest .zero (.get (str "/a.txt") rfl))
      (Env.ofRequest .zero (.get (str "/a.txt") rfl)).response :=
  (answersRead_iff rfl (Or.inl rfl)).mpr fun _ => rfl

/-- The answer to a request for a file that cannot be opened has code 200 and an empty body. -/
theorem answersRead_fails :
    ((staticFile .plain .zero (.new false (str "www")) none
      (.ofRequest .zero (.get (str "/a.txt") rfl))).value (unreadable (str "www/a.txt"))).map
        (fun answer => (answer.code, answer.body)) = .ok (200, []) ∧
      ¬(StaticFile.new false (str "www")).AnswersRead .plain .zero (unreadable (str "www/a.txt"))
        none (.ofRequest .zero (.get (str "/a.txt") rfl))
        (Env.ofRequest .zero (.get (str "/a.txt") rfl)).response := by
  have hanswer : ((staticFile .plain .zero (.new false (str "www")) none
      (.ofRequest .zero (.get (str "/a.txt") rfl))).value (unreadable (str "www/a.txt"))).map
        (fun answer => (answer.code, answer.body)) = .ok (200, []) := by
    rw [value_staticFile]
    rfl
  refine ⟨hanswer, ?_⟩
  rintro ⟨answer, hvalue, hcontent, -⟩
  rw [hvalue, Except.map, Except.ok.injEq, Prod.mk.injEq] at hanswer
  exact absurd (opens_of_hasContent (hcontent hanswer.1)) (by decide)

end StaticFile

end Lhs.Middleware
