import LhsServer.Correctness.Stack
import LhsServer.Main

/-!
# Layers of `error_404` and `static_file`

The law that every stack of these layers obeys, whatever their number and order. A response with a
code other than 0 and 404 passes all of them. Any other response is replaced by the page of the
innermost layer that resolves the path; without such a layer at most the not-found page is put in.

- `Layer.foldr_act_of_innermost`, `Layer.foldr_act_of_unresolved`: the two cases, for the layers;
- `finalResponse_of_innermost`, `finalResponse_of_unresolved`: the same, with the fallback of the
  thread;
- `Stack.respond_ofLayers_spec`: what the thread writes for a stack of layers;
- `Stack.error404_transparent_iff`: when the `error_404` layers of a stack make no difference;
- `Stack.error404_not_transparent`: a file that is served with a header field of a not-found page.
-/

namespace Lhs

open Bytes Http Middleware

/-! ## One layer after the other -/

/-- No layer has decided about the response yet: its code is 0 or 404. -/
def Open (response : Response) : Prop := response.code = 0 ∨ response.code = 404

/-- `self` is the innermost of the layers that resolve the path, and `inner` the layers below it. -/
def Innermost (fs : FileSystem) (request : Request) (layers : List Layer) (self : StaticFile)
    (inner : List Layer) : Prop :=
  (∃ outer, layers = outer ++ .staticFile self :: inner) ∧ self.Resolves fs request ∧
    ∀ layer ∈ inner, ¬layer.Resolving fs request

section Act

variable (mgz : Mgz) (mem : Memory) (fs : FileSystem) (request : Request)

/-- An open response becomes, or stays, one with the code 404. -/
theorem code_orNotFound {response : Response} (h : Open response) :
    (orNotFound mgz request.uri response).code = 404 := by
  rcases h with h | h
  · rw [orNotFound_of_code_zero mgz _ h, code_notFoundPage]
  · rw [orNotFound_of_code_ne_zero mgz _ (by omega), h]

/-- A second `error_404` does what the first one has done. -/
@[simp] theorem orNotFound_orNotFound (response : Response) :
    orNotFound mgz request.uri (orNotFound mgz request.uri response) =
      orNotFound mgz request.uri response := by
  by_cases h : response.code = 0
  · rw [orNotFound_of_code_zero mgz _ h]
    exact orNotFound_of_code_ne_zero mgz _ (by simp)
  · rw [orNotFound_of_code_ne_zero mgz _ h, orNotFound_of_code_ne_zero mgz _ h]

/-- A page that is served is decided. -/
theorem not_open_served (page : Bytes × Bytes) (response : Response) :
    ¬Open (StaticFile.served page response) := by
  have hcode : (StaticFile.served page response).code = 200 := rfl
  rw [Open, hcode]
  omega

namespace Layer

/-- A response that is decided passes a layer as it is. -/
theorem act_of_not_open {response : Response} (h : ¬Open response) (layer : Layer) :
    layer.act mgz mem fs request response = response := by
  cases layer with
  | error404 => exact orNotFound_of_code_ne_zero mgz _ fun hcode => h (Or.inl hcode)
  | staticFile self => exact if_neg fun hserved => h hserved.1

/-- A `static_file` that resolves the request serves its page. -/
theorem act_of_resolving {self : StaticFile} (hself : self.Resolves fs request)
    {response : Response} (h : Open response) :
    (staticFile self).act mgz mem fs request response =
      StaticFile.served (self.page mgz mem fs request) response := if_pos ⟨h, hself⟩

/-- One that does not leaves the response as it is. -/
theorem act_of_not_resolving {self : StaticFile} (hself : ¬self.Resolves fs request)
    (response : Response) : (staticFile self).act mgz mem fs request response = response :=
  if_neg fun hserved => hself hserved.2

/-- A response that is decided passes a stack of layers as it is. -/
theorem foldr_act_of_not_open {response : Response} (h : ¬Open response) (layers : List Layer) :
    layers.foldr (act mgz mem fs request) response = response := by
  induction layers with
  | nil => rfl
  | cons layer layers ih => rw [List.foldr_cons, ih, act_of_not_open mgz mem fs request h]

/-- Layers of which none resolves the path put in at most the not-found page, once. -/
theorem foldr_act_of_unresolved {layers : List Layer}
    (hlayers : ∀ layer ∈ layers, ¬layer.Resolving fs request) (response : Response) :
    layers.foldr (act mgz mem fs request) response =
      if error404 ∈ layers then orNotFound mgz request.uri response else response := by
  induction layers with
  | nil => rfl
  | cons layer layers ih =>
    rw [List.foldr_cons, ih fun l hl => hlayers l (List.mem_cons_of_mem _ hl)]
    -- an `error_404` finds a code 0, or has nothing to do
    cases layer with
    | error404 =>
      rw [if_pos List.mem_cons_self, act]
      split
      · exact orNotFound_orNotFound mgz request response
      · rfl
    | staticFile self =>
      rw [act_of_not_resolving mgz mem fs request (hlayers _ List.mem_cons_self)]
      simp

/-- A response that is not decided is replaced by the page of the innermost resolving layer, after
at most one not-found page was put in below that layer. -/
theorem foldr_act_of_innermost {layers inner : List Layer} {self : StaticFile}
    (hself : Innermost fs request layers self inner) {response : Response} (h : Open response) :
    layers.foldr (act mgz mem fs request) response =
      StaticFile.served (self.page mgz mem fs request)
        (if error404 ∈ inner then orNotFound mgz request.uri response else response) := by
  obtain ⟨⟨outer, rfl⟩, hresolves, hinner⟩ := hself
  -- below the resolving layer the response is still undecided
  have hopen :
      Open (if error404 ∈ inner then orNotFound mgz request.uri response else response) := by
    split
    · exact Or.inr (code_orNotFound mgz request h)
    · exact h
  -- and above it nothing changes the page any more
  rw [List.foldr_append, List.foldr_cons, foldr_act_of_unresolved mgz mem fs request hinner,
    act_of_resolving mgz mem fs request hresolves hopen,
    foldr_act_of_not_open mgz mem fs request (not_open_served _ _)]

end Layer

end Act

/-- Either one of the layers is the innermost that resolves the path, or none resolves it. -/
theorem innermost_or_unresolved (fs : FileSystem) (request : Request) (layers : List Layer) :
    (∃ self inner, Innermost fs request layers self inner) ∨
      ∀ layer ∈ layers, ¬layer.Resolving fs request := by
  induction layers with
  | nil => exact Or.inr (by simp)
  | cons layer layers ih =>
    rcases ih with ⟨self, inner, ⟨outer, rfl⟩, hself⟩ | hnone
    · exact Or.inl ⟨self, inner, ⟨layer :: outer, rfl⟩, hself⟩
    -- no layer below resolves the path: then this one is the innermost, if it does
    · by_cases hlayer : layer.Resolving fs request
      · cases layer with
        | error404 => exact hlayer.elim
        | staticFile self => exact Or.inl ⟨self, layers, ⟨[], rfl⟩, hlayer, hnone⟩
      · exact Or.inr (List.forall_mem_cons.mpr ⟨hlayer, hnone⟩)

/-- The innermost resolving layer is one of the layers. -/
theorem Innermost.mem {fs : FileSystem} {request : Request} {layers inner : List Layer}
    {self : StaticFile} (h : Innermost fs request layers self inner) :
    .staticFile self ∈ layers := by
  obtain ⟨⟨outer, rfl⟩, -⟩ := h
  simp

/-! ## The response the thread writes -/

/-- The law of a stack of layers: the response `w` that is written where `r` is the response of the
application. -/
structure WritesFor (mgz : Mgz) (mem : Memory) (fs : FileSystem) (request : Request)
    (layers : List Layer) (r w : Response) : Prop where
  /-- a response with another code is written as it is -/
  passes : ¬Open r → w = r
  /-- otherwise the code is 200 when one of the layers resolves the path, and only then -/
  code_eq_ok_iff : Open r →
    (w.code = 200 ↔ ∃ self, .staticFile self ∈ layers ∧ self.Resolves fs request)
  /-- the innermost of these layers gives the Content-Type and the body -/
  serves : Open r → ∀ self inner, Innermost fs request layers self inner →
    ∃ type, w.header.get? (str "Content-Type") = some (.string type) ∧
      self.Produces mgz mem fs request type w.body
  /-- without such a layer the answer is 404: that of the application, or the not-found page -/
  not_found : Open r → (∀ self, .staticFile self ∈ layers → ¬self.Resolves fs request) →
    w.code = 404 ∧ (r.code = 404 → w = r) ∧ (r.code = 0 → w = notFoundPage mgz request.uri r)

namespace Stack

variable (mgz : Mgz) (mem : Memory) (fs : FileSystem) (request : Request)

/-- A response that is decided is written as it is. -/
theorem finalResponse_of_not_open {r : Response} (h : ¬Open r) (layers : List Layer) :
    finalResponse mgz mem fs request layers r = r := by
  rw [finalResponse, Layer.foldr_act_of_not_open mgz mem fs request h,
    orNotFound_of_code_ne_zero mgz _ fun hcode => h (Or.inl hcode)]

/-- The page of the innermost resolving layer is written: the fallback does not touch a response
with the code 200. -/
theorem finalResponse_of_innermost {layers inner : List Layer} {self : StaticFile}
    (hself : Innermost fs request layers self inner) {r : Response} (h : Open r) :
    finalResponse mgz mem fs request layers r =
      StaticFile.served (self.page mgz mem fs request)
        (if .error404 ∈ inner then orNotFound mgz request.uri r else r) := by
  rw [finalResponse, Layer.foldr_act_of_innermost mgz mem fs request hself h,
    orNotFound_of_code_ne_zero mgz _ fun hcode => not_open_served _ _ (Or.inl hcode)]

/-- Without a resolving layer at most the not-found page is put in, by an `error_404` or by the
fallback. -/
theorem finalResponse_of_unresolved {layers : List Layer}
    (hlayers : ∀ layer ∈ layers, ¬layer.Resolving fs request) (r : Response) :
    finalResponse mgz mem fs request layers r = orNotFound mgz request.uri r := by
  rw [finalResponse, Layer.foldr_act_of_unresolved mgz mem fs request hlayers]
  split
  · exact orNotFound_orNotFound mgz request r
  · rfl

/-- What the thread writes, in all three cases. -/
theorem writesFor_finalResponse (layers : List Layer) (r : Response) :
    WritesFor mgz mem fs request layers r (finalResponse mgz mem fs request layers r) := by
  refine ⟨fun hopen => finalResponse_of_not_open mgz mem fs request hopen layers,
    fun hopen => ⟨fun hok => ?_, ?_⟩, fun hopen self inner hself => ?_, fun hopen hnone => ?_⟩
  -- a code 200 was put in by a layer: without one the code would be 404
  · rcases innermost_or_unresolved fs request layers with ⟨self, inner, hself⟩ | hlayers
    · exact ⟨self, hself.mem, hself.2.1⟩
    · rw [finalResponse_of_unresolved mgz mem fs request hlayers,
        code_orNotFound mgz request hopen] at hok
      omega
  · rintro ⟨self, hmem, hresolves⟩
    rcases innermost_or_unresolved fs request layers with ⟨self, inner, hself⟩ | hlayers
    · rw [finalResponse_of_innermost mgz mem fs request hself hopen]
      rfl
    · exact absurd hresolves (hlayers _ hmem)
  · rw [finalResponse_of_innermost mgz mem fs request hself hopen]
    exact ⟨_, Header.get?_assign_self _ _ _, self.produces_page mgz mem fs request⟩
  · have hlayers : ∀ layer ∈ layers, ¬layer.Resolving fs request := by
      rintro (_ | self) hmem
      · exact not_false
      · exact hnone self hmem
    rw [finalResponse_of_unresolved mgz mem fs request hlayers]
    refine ⟨code_orNotFound mgz request hopen, fun h => ?_, fun h => ?_⟩
    · exact orNotFound_of_code_ne_zero mgz _ (by omega)
    · exact orNotFound_of_code_zero mgz _ h

/-- Every stack of layers over an application obeys the law, for each response the application may
give. A response with a code other than 0 and 404 also leaves the stack itself as it is. -/
theorem respond_ofLayers_spec (layers : List Layer) (call : Http.Middleware) {r : Response}
    (hr : (call (Env.ofRequest mem request)).value fs = .ok r) :
    (¬Open r →
      (getResponse ((ofLayers layers call).middleware mgz mem)
        (Env.ofRequest mem request)).value fs = .ok r) ∧
      ∃ w, (Server.respond mgz mem ((ofLayers layers call).middleware mgz mem) request).value fs =
          .ok w ∧
        WritesFor mgz mem fs request layers r w := by
  refine ⟨fun hopen => ?_, _, ?_, writesFor_finalResponse mgz mem fs request layers r⟩
  · rw [value_getResponse, leaf_ofLayers, layersOn_ofLayers, getResponse_some, hr, Traced.ok_bind,
      Layer.foldr_act_of_not_open mgz mem fs _ hopen]
  · rw [value_respond_ofLayers, hr, Traced.ok_bind]

/-- The layers of `main` over an empty table of locations: a file that exists is served. -/
theorem respond_ofLayers_spec_index :
    ∃ w, (Server.respond .plain .zero
        ((ofLayers mainLayers (Middleware.urlmap .plain [])).middleware .plain .zero)
        (.get (str "/index.html") rfl)).value
        (.ofFiles [(str "./index.html", str "<html></html>")]) = .ok w ∧ w.code = 200 := by
  obtain ⟨-, w, hw, hlaw⟩ := respond_ofLayers_spec .plain .zero
    (.ofFiles [(str "./index.html", str "<html></html>")]) (.get (str "/index.html") rfl)
    mainLayers (Middleware.urlmap .plain [])
    (r := (Env.ofRequest .zero (.get (str "/index.html") rfl)).response) rfl
  refine ⟨w, hw, (hlaw.code_eq_ok_iff (Or.inl rfl)).mpr ⟨_, List.mem_cons_self, ?_⟩⟩
  decide +kernel

end Stack

/-! ## Leaving out `error_404` -/

/-- The stack without its `error_404` layers. -/
def withoutError404 (layers : List Layer) : List Layer := layers.filter (· ≠ .error404)

/-- They are all removed. -/
theorem error404_not_mem_withoutError404 (layers : List Layer) :
    Layer.error404 ∉ withoutError404 layers := by
  simp [withoutError404]

/-- The innermost resolving layer stays where it is. -/
theorem Innermost.withoutError404 {fs : FileSystem} {request : Request} {layers inner : List Layer}
    {self : StaticFile} (h : Innermost fs request layers self inner) :
    Innermost fs request (withoutError404 layers) self (withoutError404 inner) := by
  obtain ⟨⟨outer, rfl⟩, hresolves, hinner⟩ := h
  refine ⟨⟨Lhs.withoutError404 outer, by simp [Lhs.withoutError404]⟩, hresolves,
    fun layer hlayer => hinner layer (List.mem_of_mem_filter hlayer)⟩

/-- A page that replaces a not-found page is the page it would be otherwise exactly when the header
had the field `Pragma: no-cache` before: nothing takes that field out again. -/
theorem served_notFoundPage_iff (mgz : Mgz) (uri : Bytes) (page : Bytes × Bytes)
    (response : Response) :
    StaticFile.served page (notFoundPage mgz uri response) = StaticFile.served page response ↔
      response.header.get? (str "Pragma") = some (.string (str "no-cache")) := by
  have hne : str "Pragma" ≠ str "Content-Type" := by decide
  -- the Content-Type of the not-found page is overwritten, its Pragma is not
  have hheader : (StaticFile.served page (notFoundPage mgz uri response)).header =
      (StaticFile.served page response).header.assign (str "Pragma")
        (.string (str "no-cache")) := by
    simp only [StaticFile.served, header_notFoundPage, Response.header_assign,
      Header.assign_comm _ hne, Header.assign_assign]
  constructor
  · intro heq
    rw [← Header.get?_assign_of_ne response.header (.string page.1) hne]
    calc (StaticFile.served page response).header.get? (str "Pragma")
        = (StaticFile.served page (notFoundPage mgz uri response)).header.get? (str "Pragma") := by
          rw [heq]
      _ = some (.string (str "no-cache")) := by rw [hheader, Header.get?_assign_self]
  · intro hpragma
    have hget : (StaticFile.served page response).header.get? (str "Pragma") =
        some (.string (str "no-cache")) := by
      rw [← hpragma]
      exact Header.get?_assign_of_ne _ _ hne
    refine Response.ext rfl rfl rfl ?_
    rw [hheader, Header.assign_eq_self hget]

namespace Stack

variable (mgz : Mgz) (mem : Memory)

/-- The `error_404` layers of a stack make no difference to the response that is written, unless
one of them lies below the innermost layer that resolves the path: then a response without a code
reaches that layer as a not-found page, and its header is not what it was. -/
theorem error404_transparent_iff (layers : List Layer) (call : Http.Middleware)
    (request : Request) (fs : FileSystem) :
    (Server.respond mgz mem ((ofLayers layers call).middleware mgz mem) request).value fs =
        (Server.respond mgz mem ((ofLayers (withoutError404 layers) call).middleware mgz mem)
          request).value fs ↔
      ∀ r, (call (Env.ofRequest mem request)).value fs = .ok r → r.code = 0 →
        ∀ self inner, Innermost fs request layers self inner → .error404 ∈ inner →
          r.header.get? (str "Pragma") = some (.string (str "no-cache")) := by
  rw [value_respond_ofLayers, value_respond_ofLayers]
  rcases (call (Env.ofRequest mem request)).value fs with f | r
  · simp
  simp only [Traced.ok_bind, Except.ok.injEq, forall_eq']
  by_cases hopen : Open r
  · by_cases hbelow : ∃ self inner, Innermost fs request layers self inner ∧ .error404 ∈ inner
    -- the not-found page is put in below the layer that then serves its own
    · obtain ⟨self, inner, hself, hmem⟩ := hbelow
      rw [finalResponse_of_innermost mgz mem fs request hself hopen, if_pos hmem,
        finalResponse_of_innermost mgz mem fs request hself.withoutError404 hopen,
        if_neg (error404_not_mem_withoutError404 inner)]
      by_cases hcode : r.code = 0
      · rw [orNotFound_of_code_zero mgz _ hcode, served_notFoundPage_iff]
        exact ⟨fun hpragma _ _ _ _ _ => hpragma, fun h => h hcode self inner hself hmem⟩
      · simp [orNotFound_of_code_ne_zero mgz _ hcode, hcode]
    -- no `error_404` acts on what is served; on anything else the fallback acts as well
    · refine iff_of_true ?_ fun _ self inner hself hmem => absurd ⟨self, inner, hself, hmem⟩ hbelow
      rcases innermost_or_unresolved fs request layers with ⟨self, inner, hself⟩ | hlayers
      · have hmem : .error404 ∉ inner := fun hmem => hbelow ⟨self, inner, hself, hmem⟩
        rw [finalResponse_of_innermost mgz mem fs request hself hopen, if_neg hmem,
          finalResponse_of_innermost mgz mem fs request hself.withoutError404 hopen,
          if_neg (error404_not_mem_withoutError404 inner)]
      · have hwithout : ∀ layer ∈ withoutError404 layers, ¬layer.Resolving fs request :=
          fun layer hlayer => hlayers layer (List.mem_of_mem_filter hlayer)
        rw [finalResponse_of_unresolved mgz mem fs request hlayers,
          finalResponse_of_unresolved mgz mem fs request hwithout]
  · have hcode : r.code ≠ 0 := fun hcode => hopen (Or.inl hcode)
    simp [finalResponse_of_not_open mgz mem fs request hopen, hcode]

/-- The layers of `main` with and without `error_404`, over an empty table of locations: both times
the file is served, but only without `error_404` may it be cached. -/
theorem error404_not_transparent :
    let site := FileSystem.ofFiles [(str "./index.html", str "<html></html>")]
    let written layers := (Server.respond .plain .zero
      ((ofLayers layers (Middleware.urlmap .plain [])).middleware .plain .zero)
      (.get (str "/index.html") rfl)).value site
    let pragma (response : Response) := (response.code, response.header.get? (str "Pragma"))
    (written mainLayers).toOption.map pragma =
        some (200, some (.string (str "no-cache"))) ∧
      (written (withoutError404 mainLayers)).toOption.map pragma = some (200, none) ∧
      written mainLayers ≠ written (withoutError404 mainLayers) := by
  intro site written pragma
  have hwith : (written mainLayers).toOption.map pragma =
      some (200, some (.string (str "no-cache"))) := by decide +kernel
  have hwithout :
      (written (withoutError404 mainLayers)).toOption.map pragma = some (200, none) := by
    decide +kernel
  refine ⟨hwith, hwithout, fun heq => ?_⟩
  rw [heq, hwithout] at hwith
  cases hwith

end Stack

end Lhs
