import LhsServer.Correctness.Changing
import LhsServer.Correctness.Stack
import LhsServer.Main
import LhsServer.Server.Process

/-!
# Changes outside of the roots

While the tree of middlewares answers a request, the file system may change. A request passes some
`static_file` layers of the tree, and what is not below the root of one of them has no influence on
the bytes the client is sent, whenever and however often it changes.

- `Stack.getResponse_eq_traced`, `answer_eq_traced`: what follows the answer of the application, in
  the layers and in the thread, is one dialogue with the file system;
- `asks_passing`: the dialogue is about paths below the roots of these layers;
- `answer_of_outside`: bytes and questions are those of a file system that does not change.
-/

namespace Lhs

open Bytes Http Middleware Dialogue

/-! ## The layers as dialogues -/

section Dialogues

variable (mgz : Mgz) (mem : Memory)

/-- What the layer does behind the call of its inner middleware. -/
def Layer.serve (request : Request) : Layer → Response → Session Response
  | .error404, response => pure (orNotFound mgz request.uri response)
  | .staticFile self, response => StaticFile.Changing.serve self mgz mem request response

/-- What the layers, the outermost first, do behind the answer of the application. -/
def passing (request : Request) (response : Response) (layers : List Layer) : Session Response :=
  layers.foldr (fun layer inner => inner >>= layer.serve mgz mem request) (pure response)

/-- What the thread does behind the answer of the application: to the bytes that it writes. -/
def answering (request : Request) (layers : List Layer) (response : Response) : Session Bytes := do
  let response ← passing mgz mem request response layers
  Dialogue.lift ((orNotFound mgz request.uri response).assemble mgz)

theorem error404_eq (app_ : Option Http.Middleware) (env : Env) :
    error404 mgz app_ env = getResponse app_ env >>= fun response =>
      pure (orNotFound mgz env.request.uri response) := by
  rw [error404]
  congr 1
  funext response
  by_cases hcode : response.code = 0
  · rw [orNotFound_of_code_zero mgz _ hcode]
    simp only [getRequest, if_pos hcode]
    rfl
  · rw [orNotFound_of_code_ne_zero mgz _ hcode]
    simp only [getRequest, if_neg hcode]

theorem Layer.middleware_eq_traced (layer : Layer) (app_ : Option Http.Middleware) (env : Env) :
    layer.middleware mgz mem app_ env = getResponse app_ env >>= fun response =>
      (layer.serve mgz mem env.request response).traced FileSystem.answer := by
  cases layer with
  | error404 => exact error404_eq mgz app_ env
  | staticFile self => exact staticFile_eq_traced mgz mem self app_ env

/-- A tree calls the application the request is routed to; all that follows is the dialogue of the
layers on the way back. -/
theorem Stack.getResponse_eq_traced (stack : Stack) (env : Env) :
    getResponse (stack.middleware mgz mem) env =
      getResponse (stack.leaf mgz env.request) env >>= fun response =>
        (passing mgz mem env.request response (stack.layersOn mgz env.request)).traced
          FileSystem.answer := by
  induction stack with
  | null => rfl
  | app call => exact (Traced.bind_pure _).symm
  | layered layer inner ih =>
    show layer.middleware mgz mem (inner.middleware mgz mem) env = _
    -- the outermost layer has the last part of the dialogue
    rw [Layer.middleware_eq_traced, ih, Traced.bind_assoc]
    congr 1
    funext response
    rw [← traced_bind]
    rfl
  | urlmap mapping apps ih =>
    -- the request goes on in the tree that is found, or ends here
    show Urlmap.getResponse mgz _ env = _
    rw [urlmap_getResponse, findApp_map]
    rcases hfound : Urlmap.findApp mgz mapping env.request with _ | i
    · simp only [leaf, layersOn, hfound, Option.bind_none]
      exact (Traced.bind_pure _).symm
    · rw [Option.bind_some, ih]
      simp only [leaf, layersOn, hfound]

theorem respond_eq (call : Http.Middleware) (request : Request) :
    Server.respond mgz mem (some call) request =
      call (Env.ofRequest mem request) >>= fun response =>
        pure (orNotFound mgz request.uri response) := by
  rw [Server.respond]
  congr 1
  funext response
  rw [Traced.pure_bind]
  by_cases hcode : response.code = 0
  · rw [orNotFound_of_code_zero mgz _ hcode]
    simp only [hcode, decide_true, if_true]
    rfl
  · rw [orNotFound_of_code_ne_zero mgz _ hcode]
    simp only [decide_eq_true_eq, if_neg hcode]

/-- The thread between parsing and writing: the call of the application, and the dialogue. -/
theorem answer_eq_traced {stack : Stack} {call : Http.Middleware}
    (hcall : stack.middleware mgz mem = some call) {data : Bytes} {request : Request}
    (hparse : Request.parse mgz mem data = .ok request) :
    Server.answer mgz mem (stack.middleware mgz mem) data =
      getResponse (stack.leaf mgz request) (Env.ofRequest mem request) >>= fun response =>
        (answering mgz mem request (stack.layersOn mgz request) response).traced
          FileSystem.answer := by
  have hstack := stack.getResponse_eq_traced mgz mem (Env.ofRequest mem request)
  rw [hcall, getResponse_some] at hstack
  rw [Server.answer, hparse, Traced.lift_ok_bind, hcall, respond_eq, hstack, Traced.bind_assoc,
    Traced.bind_assoc]
  congr 1
  funext response
  rw [answering, traced_bind]
  rfl

end Dialogues

/-! ## The paths they are about -/

/-- The path lies below the root of a `static_file` among the layers. -/
def Below (layers : List Layer) (path : Bytes) : Prop :=
  ∃ self, .staticFile self ∈ layers ∧ Confined self.root path

/-- The root of each `static_file` among the layers is a path. -/
def Rooted (layers : List Layer) : Prop :=
  ∀ self, .staticFile self ∈ layers → self.root ≠ [] ∧ NUL ∉ self.root

section Paths

variable (mgz : Mgz) (mem : Memory) (request : Request)

theorem asks_passing {layers : List Layer} (hrooted : Rooted layers) (response : Response) :
    (passing mgz mem request response layers).After fun history _ =>
      (∀ e ∈ history, Below layers e.1.path) ∧ True := by
  induction layers with
  | nil => exact After.pure ⟨fun _ he => absurd he List.not_mem_nil, trivial⟩
  | cons layer layers ih =>
    -- a path below the root of an inner layer is below one of all roots
    have hinner := ih fun self hself => hrooted self (List.mem_cons_of_mem _ hself)
    refine After.bind_forall (V := fun _ => True) (hinner.mono fun history _ h => ⟨?_, trivial⟩)
      fun response _ => ?_
    · intro e he
      obtain ⟨self, hself, hconfined⟩ := h.1 e he
      exact ⟨self, List.mem_cons_of_mem _ hself, hconfined⟩
    · cases layer with
      | error404 => exact After.pure ⟨fun _ he => absurd he List.not_mem_nil, trivial⟩
      | staticFile self =>
        obtain ⟨hne, hnul⟩ := hrooted self List.mem_cons_self
        refine (StaticFile.Changing.asks_serve hne hnul mgz mem request response).mono ?_
        exact fun history _ h => ⟨fun e he => ⟨self, List.mem_cons_self, h.1 e he⟩, trivial⟩

end Paths

/-! ## The influence of changes -/

/-- While the layers that a request passes answer it, the file system may change. Whatever changes,
the layers return, and have asked about paths below their roots; and as long as what is below these
roots stays as it is in `fs`, the thread comes to the bytes that it writes in `fs`, by the questions
that it asks there. -/
theorem answer_of_outside (mgz : Mgz) (mem : Memory) {stack : Stack} {call : Http.Middleware}
    (hcall : stack.middleware mgz mem = some call) {data : Bytes} {request : Request}
    (hparse : Request.parse mgz mem data = .ok request)
    (hrooted : Rooted (stack.layersOn mgz request)) {fs : FileSystem} {response : Response}
    (hleaf : (getResponse (stack.leaf mgz request) (Env.ofRequest mem request)).value fs =
      .ok response) (moments : ℕ → FileSystem) :
    (∃ final history,
      (passing mgz mem request response (stack.layersOn mgz request)).runs
        FileSystem.answer moments = (.ok final, history) ∧
      ∀ e ∈ history, Below (stack.layersOn mgz request) e.1.path) ∧
    ((∀ n q, Below (stack.layersOn mgz request) q.path →
        (moments n).answer q = fs.answer q) →
      ∃ history,
        (answering mgz mem request (stack.layersOn mgz request) response).runs
          FileSystem.answer moments =
            ((Server.answer mgz mem (stack.middleware mgz mem) data).value fs, history) ∧
        (Server.answer mgz mem (stack.middleware mgz mem) data).trace fs =
          (getResponse (stack.leaf mgz request) (Env.ofRequest mem request)).trace fs ++
            history.map Sigma.fst) := by
  obtain ⟨final, hfinal, hbelow, -⟩ :=
    (asks_passing mgz mem request hrooted response).runs FileSystem.answer moments
  refine ⟨⟨final, _, Prod.ext hfinal rfl, hbelow⟩, fun hsame => ?_⟩
  -- the questions are about paths where the answers do not differ
  have hruns : (passing mgz mem request response (stack.layersOn mgz request)).runs
      FileSystem.answer moments =
        (passing mgz mem request response (stack.layersOn mgz request)).runs
          FileSystem.answer fun _ => fs :=
    runs_eq_of_answers fun n e he => hsame n e.1 (hbelow e (List.mem_of_getElem? he))
  -- behind the last question the bytes are assembled, whatever that gives
  have hanswering : (answering mgz mem request (stack.layersOn mgz request) response).runs
      FileSystem.answer moments =
        (answering mgz mem request (stack.layersOn mgz request) response).runs
          FileSystem.answer fun _ => fs := by
    rw [answering, runs_bind_lift, runs_bind_lift, hruns]
  refine ⟨_, hanswering.trans (Prod.ext ?_ rfl), ?_⟩
  · rw [answer_eq_traced mgz mem hcall hparse, Traced.value_bind, hleaf, Traced.ok_bind]
    rfl
  · rw [answer_eq_traced mgz mem hcall hparse, Traced.trace_bind, hleaf]
    rfl

/-- The layers of `main` over nothing. -/
def layersAlone : Stack := mainLayers.foldr .layered .null

/-- A file in the current directory. -/
def withoutKey : FileSystem := .ofFiles [(str "./a.txt", str "content")]

/-- The same file, and another one elsewhere that is there for the first question only. -/
def withKey (n : ℕ) : FileSystem :=
  .ofFiles ((str "./a.txt", str "content") :: if n < 1 then [(str "/key", str "secret")] else [])

theorem answer_withKey (n : ℕ) (q : OsCall) (h : Below mainLayers q.path) :
    (withKey n).answer q = withoutKey.answer q := by
  have hne : q.path ≠ str "/key" := by
    intro heq
    obtain ⟨self, hself, habs, -⟩ := h
    obtain rfl : self = .new true StaticFile.currentDirectory := by
      simpa [mainLayers] using hself
    rw [heq] at habs
    exact absurd habs (by decide)
  have hlookup : ((str "./a.txt", str "content") ::
      if n < 1 then [(str "/key", str "secret")] else []).lookup q.path =
        [(str "./a.txt", str "content")].lookup q.path := by
    split
    · have hkey : (q.path == str "/key") = false := beq_false_of_ne hne
      simp only [List.lookup_cons, List.lookup_nil, hkey]
    · rfl
  cases q with
  | access path => exact congrArg Option.isSome hlookup
  | stat path => exact congrArg (Option.map _) hlookup
  | ifstream path => exact hlookup
  | opendir path => rfl

/-- The other file has no effect on a request for the file in the current directory. -/
theorem answer_of_outside_key : ∃ request history,
    Request.parse .plain .zero (str "GET /a.txt HTTP/1.1\n\n") = .ok request ∧
    (answering .plain .zero request mainLayers (Env.ofRequest .zero request).response).runs
      FileSystem.answer withKey =
        ((Server.answer .plain .zero (layersAlone.middleware .plain .zero)
          (str "GET /a.txt HTTP/1.1\n\n")).value withoutKey, history) := by
  have hget : (Request.parse .plain .zero (str "GET /a.txt HTTP/1.1\n\n")).map (·.uri) =
      .ok (str "/a.txt") := by decide
  obtain ⟨request, hparse, -⟩ := Run.exists_ok_of_map hget
  have hrooted : Rooted (layersAlone.layersOn .plain request) := by
    intro self hself
    obtain rfl : self = .new true StaticFile.currentDirectory := by
      simpa [layersAlone, mainLayers, Stack.layersOn] using hself
    exact ⟨by decide, by decide⟩
  have hleaf : (getResponse (layersAlone.leaf .plain request)
      (Env.ofRequest .zero request)).value withoutKey =
        .ok (Env.ofRequest .zero request).response := rfl
  obtain ⟨call, hcall⟩ : ∃ call, layersAlone.middleware .plain .zero = some call := ⟨_, rfl⟩
  obtain ⟨-, hsame⟩ := answer_of_outside .plain .zero hcall hparse hrooted hleaf withKey
  obtain ⟨history, hruns, -⟩ := hsame answer_withKey
  exact ⟨request, history, hparse, hruns⟩

end Lhs
