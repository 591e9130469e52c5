import LhsServer.Middleware.Objects
import Mathlib.Order.Filter.AtTopBot.Basic
import Mathlib.Order.Filter.Finite

/-!
# Objects and trees

The trees of `Middleware.Stack` are what the objects of `Middleware.Objects` stand for, as long as
they are alive.

- `Represents`: a pointer into memory stands for a tree;
- `call_of_represents`: a call through the pointer is a call of the tree;
- `delete_of_represents`: deleting the object behind the pointer is defined, ends the life of the
  objects that are linked by `app_`, and leaves whole what a `urlmap` points to.
-/

namespace Lhs

open Bytes Http Middleware

/-- The objects behind a pointer are alive, and are put together like the tree. -/
inductive Represents (mgz : Mgz) (mem : Memory) (heap : Heap Object) : Option ℕ → Stack → Prop
  | null : Represents mgz mem heap none .null
  | app {a : ℕ} {call : Option Http.Middleware → Http.Middleware} {app_ : Option ℕ} {inner : Stack}
      (h : heap[a]? = some (.app call app_)) (hinner : Represents mgz mem heap app_ inner) :
      Represents mgz mem heap (some a) (.app (call (inner.middleware mgz mem)))
  | layer {a : ℕ} {layer : Layer} {app_ : Option ℕ} {inner : Stack}
      (h : heap[a]? = some (.layer layer app_)) (hinner : Represents mgz mem heap app_ inner) :
      Represents mgz mem heap (some a) (.layered layer inner)
  | urlmap {a : ℕ} {mapping_ : List (Mapping ℕ)} {apps : ℕ → Stack}
      (h : heap[a]? = some (.urlmap mapping_))
      (happs : ∀ m ∈ mapping_, ∀ b, m.app = some b → Represents mgz mem heap (some b) (apps b)) :
      Represents mgz mem heap (some a) (.urlmap mapping_ apps)

theorem Object.mem_pointers_of_app_ {o : Object} {b : ℕ} (h : o.app_ = some b) :
    b ∈ o.pointers := by
  cases o with
  | app call app_ => exact Option.mem_toList.mpr h
  | layer layer app_ => exact Option.mem_toList.mpr h
  | urlmap mapping_ => cases h

section Represents

variable {mgz : Mgz} {mem : Memory} {heap heap' : Heap Object} {p : Option ℕ} {stack : Stack}

/-- A call of an object that is alive. -/
theorem callAt_succ {dead : ℕ → Http.Middleware} {a : ℕ} {o : Object} (h : heap[a]? = some o)
    (depth : ℕ) : callAt mgz mem dead heap (depth + 1) a =
      o.call mgz mem (callAt mgz mem dead heap depth) := by
  rw [callAt, h]

/-- A call of one that is not. -/
theorem callAt_of_dead (dead : ℕ → Http.Middleware) {a : ℕ} (h : heap[a]? = none) (depth : ℕ) :
    callAt mgz mem dead heap depth a = dead a := by
  cases depth with
  | zero => rfl
  | succ depth => rw [callAt, h]

/-- A call of an object needs the room for one more call than what it points to. -/
theorem eventually_callAt {dead : ℕ → Http.Middleware} {a : ℕ} {o : Object}
    {call : Memory → Option Http.Middleware} (h : heap[a]? = some o)
    (ho : ∀ᶠ depth in Filter.atTop, ∀ own,
      some (o.call mgz own (callAt mgz own dead heap depth)) = call own) :
    ∀ᶠ depth in Filter.atTop, ∀ own, (some a).map (callAt mgz own dead heap depth) = call own := by
  rw [← Filter.map_add_atTop_eq_nat 1, Filter.eventually_map]
  refine ho.mono fun depth hdepth own => ?_
  rw [Option.map_some, callAt_succ h, hdepth]

/-- With room enough a call through a pointer is a call of the tree it stands for, and as much room
is enough whatever memory the calls find. -/
theorem Represents.eventually_calls (h : Represents mgz mem heap p stack)
    (dead : ℕ → Http.Middleware) :
    ∃ call : Memory → Option Http.Middleware, call mem = stack.middleware mgz mem ∧
      ∀ᶠ depth in Filter.atTop, ∀ own, p.map (callAt mgz own dead heap depth) = call own := by
  induction h with
  | null => exact ⟨fun _ => none, rfl, .of_forall fun _ _ => rfl⟩
  | @app a call app_ _ ha _ ih =>
    obtain ⟨inner, hinner, hcall⟩ := ih
    refine ⟨fun own => some (call (inner own)), ?_,
      eventually_callAt ha (hcall.mono fun depth hdepth own => ?_)⟩
    · simp only [hinner, Stack.middleware]
    · rw [Object.call, hdepth]
  | @layer a layer app_ _ ha _ ih =>
    obtain ⟨inner, hinner, hcall⟩ := ih
    refine ⟨fun own => some (layer.middleware mgz own (inner own)), ?_,
      eventually_callAt ha (hcall.mono fun depth hdepth own => ?_)⟩
    · simp only [hinner, Stack.middleware]
    · rw [Object.call, hdepth]
  | @urlmap a mapping_ apps ha happs ih =>
    -- what is called through each pointer of the table
    have hchoose (b : ℕ) : ∃ call : Memory → Option Http.Middleware,
        ∀ m ∈ mapping_, m.app = some b → call mem = (apps b).middleware mgz mem ∧
        ∀ᶠ depth in Filter.atTop, ∀ own,
          (some b).map (callAt mgz own dead heap depth) = call own := by
      by_cases hb : ∃ m ∈ mapping_, m.app = some b
      · obtain ⟨m, hm, hmb⟩ := hb
        obtain ⟨call, hcall⟩ := ih m hm b hmb
        exact ⟨call, fun _ _ _ => hcall⟩
      · exact ⟨fun _ => none, fun m hm hmb => absurd ⟨m, hm, hmb⟩ hb⟩
    choose called hcalled using hchoose
    -- there is room for every app of the table
    have htable : ∀ᶠ depth in Filter.atTop, ∀ m ∈ mapping_, ∀ own,
        m.app.map (callAt mgz own dead heap depth) = m.app.bind (called · own) := by
      refine (Filter.eventually_all_finite mapping_.finite_toSet).mpr fun m hm => ?_
      cases hb : m.app with
      | none => exact .of_forall fun _ _ => rfl
      | some b => exact (hcalled b m hm hb).2
    refine ⟨fun own => some (Middleware.urlmap mgz (mapping_.map fun m =>
      { m with app := m.app.bind (called · own) })), ?_,
      eventually_callAt ha (htable.mono fun depth hdepth own => ?_)⟩
    · simp only [Stack.middleware]
      congr 2
      refine List.map_congr_left fun m hm => ?_
      cases hb : m.app with
      | none => rfl
      | some b => rw [Option.bind_some, Option.bind_some, (hcalled b m hm hb).1]
    · rw [Object.call]
      congr 2
      refine List.map_congr_left fun m hm => ?_
      rw [hdepth m hm own]

/-- The same for a tree that depends on the memory that its calls find. -/
theorem Represents.eventually_call_all {tree : Memory → Stack}
    (h : ∀ own, Represents mgz own heap p (tree own)) (dead : ℕ → Http.Middleware) :
    ∀ᶠ depth in Filter.atTop, ∀ own,
      p.map (callAt mgz own dead heap depth) = (tree own).middleware mgz own := by
  obtain ⟨call, -, hcall⟩ := (h .zero).eventually_calls dead
  refine hcall.mono fun depth hdepth own => ?_
  -- both agree on a stack that is deep enough for both
  obtain ⟨call', hcall', hown⟩ := (h own).eventually_calls dead
  obtain ⟨deep, hdeep, hdeep'⟩ := (hcall.and hown).exists
  rw [hdepth own, ← hcall', ← hdeep own, hdeep' own]

/-- A pointer that stands for a tree, and the calls through it: whatever dead objects do, a deep
enough stack gives the answers of the tree. -/
theorem call_of_represents (h : Represents mgz mem heap p stack) (dead : ℕ → Http.Middleware) :
    ∃ room, ∀ depth, room ≤ depth →
      p.map (callAt mgz mem dead heap depth) = stack.middleware mgz mem := by
  obtain ⟨call, hcall, hcalls⟩ := h.eventually_calls dead
  refine Filter.eventually_atTop.mp (hcalls.mono fun depth hdepth => ?_)
  rw [hdepth mem, hcall]

/-! ## What is alive -/

/-- The objects a tree is made of are linked by `app_` down to its leaf. -/
theorem Represents.exists_chain (h : Represents mgz mem heap p stack) :
    ∃ as, Heap.Chain Object.app_ heap p as := by
  induction h with
  | null => exact ⟨[], .nil⟩
  | app ha _ ih =>
    obtain ⟨as, has⟩ := ih
    exact ⟨_, .cons ha has⟩
  | layer ha _ ih =>
    obtain ⟨as, has⟩ := ih
    exact ⟨_, .cons ha has⟩
  | urlmap ha => exact ⟨_, .cons ha .nil⟩

/-- No way through the objects of a tree goes on for ever. -/
theorem Represents.grounded (h : Represents mgz mem heap p stack) :
    ∀ a, p = some a → Heap.Grounded Object.pointers heap a := by
  have hstep {a : ℕ} {o : Object} (ha : heap[a]? = some o)
      (ho : ∀ b ∈ o.pointers, Heap.Grounded Object.pointers heap b) :
      Heap.Grounded Object.pointers heap a := by
    refine .intro a fun b ⟨o', ho', hb⟩ => ho b ?_
    rwa [Option.some.inj (ha.symm.trans ho')]
  induction h with
  | null => rintro a ⟨⟩
  | app ha _ ih =>
    rintro _ ⟨⟩
    exact hstep ha fun b hb => ih b (Option.mem_toList.mp hb)
  | layer ha _ ih =>
    rintro _ ⟨⟩
    exact hstep ha fun b hb => ih b (Option.mem_toList.mp hb)
  | urlmap ha _ ih =>
    rintro _ ⟨⟩
    refine hstep ha fun b hb => ?_
    obtain ⟨m, hm, hmb⟩ := List.mem_filterMap.mp hb
    exact ih m hm b hmb b rfl

/-- A tree is still there in memory that is the same below the pointer. -/
theorem Represents.congr (h : Represents mgz mem heap p stack)
    (hsame : ∀ a, p = some a → ∀ c, Heap.Below Object.pointers heap a c → heap'[c]? = heap[c]?) :
    Represents mgz mem heap' p stack := by
  induction h with
  | null => exact .null
  | @app a call app_ inner ha hinner ih =>
    refine .app ((hsame a rfl a .refl).trans ha) (ih fun b hb c hc => hsame a rfl c ?_)
    exact .head ⟨_, ha, Option.mem_toList.mpr hb⟩ hc
  | @layer a layer app_ inner ha hinner ih =>
    refine .layer ((hsame a rfl a .refl).trans ha) (ih fun b hb c hc => hsame a rfl c ?_)
    exact .head ⟨_, ha, Option.mem_toList.mpr hb⟩ hc
  | @urlmap a mapping_ apps ha happs ih =>
    refine .urlmap ((hsame a rfl a .refl).trans ha) fun m hm b hb => ih m hm b hb ?_
    rintro _ ⟨⟩ c hc
    exact hsame a rfl c (.head ⟨_, ha, List.mem_filterMap.mpr ⟨m, hm, hb⟩⟩ hc)

/-! ## Deleting -/

/-- Deleting the object behind a pointer that stands for a tree is defined. It ends the life of the
objects that are linked by `app_` and of no others, and what the table of a `urlmap` among them
points to is as usable as before. -/
theorem delete_of_represents (h : Represents mgz mem heap p stack) :
    ∃ as heap', Heap.Chain Object.app_ heap p as ∧ deleteAt heap p = some heap' ∧
      (∀ b, heap'[b]? = if b ∈ as then none else heap[b]?) ∧
      ∀ u ∈ as, ∀ mapping_, heap[u]? = some (.urlmap mapping_) →
        ∀ m ∈ mapping_, ∀ b, m.app = some b → ∀ stack', Represents mgz mem heap (some b) stack' →
          Represents mgz mem heap' (some b) stack' := by
  obtain ⟨as, has⟩ := h.exists_chain
  refine ⟨as, heap.without as, has, has.delete, Heap.getElem?_without as, ?_⟩
  intro u hu mapping_ hurlmap m hm b hb stack' hstack'
  obtain ⟨a, rfl⟩ : ∃ a, p = some a := by
    cases p with
    | none =>
      cases has
      cases hu
    | some a => exact ⟨a, rfl⟩
  refine hstack'.congr ?_
  rintro _ ⟨⟩ c hc
  -- the `urlmap` owns nothing, so it is the last of the chain
  exact Heap.getElem?_without_of_not_mem (has.not_mem_of_below
    (fun o b => Object.mem_pointers_of_app_) (h.grounded a rfl) hu hurlmap rfl
    (List.mem_filterMap.mpr ⟨m, hm, hb⟩) hc)

end Represents

/-! ## A tree of three objects -/

/-- An `error_404` over a `urlmap` with one entry. -/
def routedObjects : Heap Object :=
  (((∅ : Heap Object).insert 1 (.app getResponse none)).insert 2 (.urlmap
    [{ host := [], location := str "/x", pattern := str "^/+x(.*)", app := some 1 }])).insert 3
      (.layer .error404 (some 2))

/-- The tree that they stand for. -/
def routedStack : Stack :=
  .layered .error404 (.urlmap
    [{ host := [], location := str "/x", pattern := str "^/+x(.*)", app := some 1 }] fun _ =>
      .app (getResponse none))

theorem represents_routed : Represents .plain .zero routedObjects (some 3) routedStack := by
  refine .layer rfl (.urlmap rfl fun m hm b hb => ?_)
  rw [List.mem_singleton.mp hm] at hb
  obtain rfl := Option.some.inj hb
  have happ : Represents .plain .zero routedObjects (some 1)
      (.app (getResponse (Stack.null.middleware .plain .zero))) := .app rfl .null
  exact happ

theorem call_of_represents_routed :
    ∃ room, ∀ depth, room ≤ depth →
      (some 3).map (callAt .plain .zero (fun _ env => pure env.response) routedObjects depth) =
        routedStack.middleware .plain .zero :=
  call_of_represents represents_routed _

theorem delete_of_represents_routed :
    ∃ as heap', Heap.Chain Object.app_ routedObjects (some 3) as ∧
      deleteAt routedObjects (some 3) = some heap' ∧
      (∀ b, heap'[b]? = if b ∈ as then none else routedObjects[b]?) ∧
      ∀ u ∈ as, ∀ mapping_, routedObjects[u]? = some (.urlmap mapping_) →
        ∀ m ∈ mapping_, ∀ b, m.app = some b → ∀ stack',
          Represents .plain .zero routedObjects (some b) stack' →
            Represents .plain .zero heap' (some b) stack' :=
  delete_of_represents represents_routed

end Lhs
