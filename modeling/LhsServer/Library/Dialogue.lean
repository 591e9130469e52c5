import LhsServer.Library.Traced

/-!
# Dialogues

A computation as a tree: it is done, or it asks a question in `ω` and goes on with the answer, which
has the type `A q` for the question `q`. Unlike a `Traced` computation it need not meet one
environment: each question can meet another one.

- `runs`: what comes of a dialogue with an environment for each question;
- `traced`, `traced_bind_eq`: the computation in an environment that does not change;
- `runs_eq_of_answers`: differences that no answer shows have no effect;
- `After`, `After.bind`, `After.foldlM`: a predicate on the history of questions and answers and the
  value, and the rules by which it follows the program;
- `After.runs`: what is proved by the rules holds for all environments.
-/

/-- A computation that asks questions and ends with a value in `α` or an error in `ε`. -/
inductive Dialogue (ω : Type) (A : ω → Type) (ε α : Type) : Type where
  | done (r : Except ε α)
  | ask (q : ω) (next : A q → Dialogue ω A ε α)

namespace Dialogue

variable {ω : Type} {A : ω → Type} {ε α β γ ρ : Type}

/-- Go on with `f` where `m` is done, unless it has failed. -/
protected def bind (m : Dialogue ω A ε α) (f : α → Dialogue ω A ε β) : Dialogue ω A ε β :=
  match m with
  | .done (.ok a) => f a
  | .done (.error e) => .done (.error e)
  | .ask q next => .ask q fun x => (next x).bind f

instance : Monad (Dialogue ω A ε) where
  pure a := .done (.ok a)
  bind := Dialogue.bind

/-- Ask one question. -/
def question (q : ω) : Dialogue ω A ε (A q) := .ask q fun x => .done (.ok x)

/-- A computation that asks nothing. -/
def lift (r : Except ε α) : Dialogue ω A ε α := .done r

/-- A question with its answer. -/
abbrev Answered (A : ω → Type) : Type := (q : ω) × A q

/-! ## Runs -/

section Run

variable (answer : ρ → (q : ω) → A q)

/-- The result and the history, when the `n`-th question meets the `n`-th environment. -/
def runs : Dialogue ω A ε α → (ℕ → ρ) → Except ε α × List (Answered A)
  | .done r, _ => (r, [])
  | .ask q next, envs =>
    let rest := (next (answer (envs 0) q)).runs fun n => envs (n + 1)
    (rest.1, ⟨q, answer (envs 0) q⟩ :: rest.2)

/-- The computation in an environment that does not change. -/
def traced (m : Dialogue ω A ε α) : Traced ρ ω ε α := fun env =>
  ((m.runs answer fun _ => env).1, (m.runs answer fun _ => env).2.map Sigma.fst)

variable {answer}

/-- A run asks its first question first, and goes on with the answer. -/
theorem runs_ask (q : ω) (next : A q → Dialogue ω A ε α) (envs : ℕ → ρ) :
    (ask q next).runs answer envs =
      let rest := (next (answer (envs 0) q)).runs answer fun n => envs (n + 1)
      (rest.1, ⟨q, answer (envs 0) q⟩ :: rest.2) := rfl

/-- What follows the last question does not show in the history. -/
theorem runs_bind_lift (m : Dialogue ω A ε α) (g : α → Except ε β) (envs : ℕ → ρ) :
    (m >>= fun a => lift (g a)).runs answer envs =
      ((m.runs answer envs).1 >>= g, (m.runs answer envs).2) := by
  induction m generalizing envs with
  | done r => cases r <;> rfl
  | ask q next ih =>
    show (ask q fun x => next x >>= fun a => lift (g a)).runs answer envs = _
    rw [runs_ask, runs_ask, ih]

/-- The answers are those of the environments that the questions have met. -/
theorem answer_of_runs {m : Dialogue ω A ε α} {envs : ℕ → ρ} {n : ℕ} {e : Answered A}
    (h : (m.runs answer envs).2[n]? = some e) : e.2 = answer (envs n) e.1 := by
  induction m generalizing envs n with
  | done r => cases h
  | ask q next ih =>
    cases n with
    | zero =>
      obtain rfl := Option.some.inj h
      rfl
    | succ n => exact @ih _ (fun n => envs (n + 1)) n h

/-- Where each question gets the answer that it gets in `env`, the run is the one in `env`. -/
theorem runs_eq_of_answers {m : Dialogue ω A ε α} {envs : ℕ → ρ} {env : ρ}
    (h : ∀ n e, (m.runs answer envs).2[n]? = some e → answer (envs n) e.1 = answer env e.1) :
    m.runs answer envs = m.runs answer fun _ => env := by
  induction m generalizing envs with
  | done r => rfl
  | ask q next ih =>
    -- the first answer decides how the dialogue goes on, the rest meets the later environments
    have hfirst : answer (envs 0) q = answer env q := h 0 ⟨q, answer (envs 0) q⟩ rfl
    have hrest := @ih (answer (envs 0) q) (fun n => envs (n + 1)) fun n e he => h (n + 1) e he
    rw [runs_ask, runs_ask, hrest, hfirst]

/-! ## The computation in one environment -/

/-- In an environment that does not change, a question is a traced call. -/
theorem traced_ask (q : ω) (next : A q → Dialogue ω A ε α) :
    (ask q next).traced answer =
      Traced.call q (fun env => answer env q) >>= fun x => (next x).traced answer := rfl

/-- A dialogue of two parts in such an environment. -/
theorem traced_bind (m : Dialogue ω A ε α) (f : α → Dialogue ω A ε β) :
    (m >>= f).traced answer = m.traced answer >>= fun a => (f a).traced answer := by
  induction m with
  | done r => cases r <;> rfl
  | ask q next ih =>
    calc (ask q next >>= f).traced answer
        = Traced.call q (fun env => answer env q) >>= fun x => (next x >>= f).traced answer :=
          traced_ask q _
      _ = Traced.call q (fun env => answer env q) >>= fun x =>
            (next x).traced answer >>= fun a => (f a).traced answer := by simp only [ih]
      _ = (ask q next).traced answer >>= fun a => (f a).traced answer := by
          rw [traced_ask, Traced.bind_assoc]

/-- Two compositions agree where their halves do. -/
theorem traced_bind_eq {m : Dialogue ω A ε α} {f : α → Dialogue ω A ε β} {t : Traced ρ ω ε α}
    {g : α → Traced ρ ω ε β} (hm : m.traced answer = t) (hf : ∀ a, (f a).traced answer = g a) :
    (m >>= f).traced answer = t >>= g := by
  rw [traced_bind, hm, funext hf]

end Run

/-! ## Predicates on the history -/

/-- The dialogue does not fail, and whatever the answers are, its history and its value satisfy
`Q`. -/
def After : Dialogue ω A ε α → (List (Answered A) → α → Prop) → Prop
  | .done (.ok a), Q => Q [] a
  | .done (.error _), _ => False
  | .ask q next, Q => ∀ x, (next x).After fun h a => Q (⟨q, x⟩ :: h) a

variable {m : Dialogue ω A ε α} {f : α → Dialogue ω A ε β} {Q R : List (Answered A) → α → Prop}
  {S : List (Answered A) → β → Prop}

/-- A weaker postcondition. -/
theorem After.mono (hm : m.After Q) (h : ∀ l a, Q l a → R l a) : m.After R := by
  induction m generalizing Q R with
  | done r =>
    cases r with
    | error e => exact hm
    | ok a => exact h [] a hm
  | ask q next ih => exact fun x => ih x (hm x) fun l a => h (⟨q, x⟩ :: l) a

theorem After.pure {a : α} (h : Q [] a) : (Pure.pure a : Dialogue ω A ε α).After Q := h

/-- The rule of one question: whatever its answer is. -/
theorem After.question {q : ω} {Q : List (Answered A) → A q → Prop} (h : ∀ x, Q [⟨q, x⟩] x) :
    (Dialogue.question q : Dialogue ω A ε (A q)).After Q := h

/-- A computation that asks nothing, and does not fail. -/
theorem After.lift {r : Except ε α} {a : α} (hr : r = .ok a) (h : Q [] a) :
    (Dialogue.lift r : Dialogue ω A ε α).After Q := by
  subst hr
  exact h

/-- The rule of composition: what the first half has asked comes first in the history. -/
theorem After.bind (hm : m.After fun h a => (f a).After fun h' b => S (h ++ h') b) :
    (m >>= f).After S := by
  induction m generalizing S with
  | done r =>
    cases r with
    | error e => exact hm
    | ok a => exact hm
  | ask q next ih => exact fun x => ih x (hm x)

/-- Two postconditions at once. -/
theorem After.and (hm : m.After Q) (hr : m.After R) : m.After fun h a => Q h a ∧ R h a := by
  induction m generalizing Q R with
  | done r =>
    cases r with
    | error e => exact hm
    | ok a => exact ⟨hm, hr⟩
  | ask q next ih => exact fun x => ih x (hm x) (hr x)

/-- The rule of composition for a predicate that holds of every answered question. -/
theorem After.bind_forall {P : Answered A → Prop} {V : α → Prop} {W : β → Prop}
    (hm : m.After fun h a => (∀ e ∈ h, P e) ∧ V a)
    (hf : ∀ a, V a → (f a).After fun h b => (∀ e ∈ h, P e) ∧ W b) :
    (m >>= f).After fun h b => (∀ e ∈ h, P e) ∧ W b := by
  -- a question of the composition is one of the first half or one of the second
  refine After.bind (hm.mono fun h a ha => (hf a ha.2).mono fun h' b hb => ⟨fun e he => ?_, hb.2⟩)
  rcases List.mem_append.mp he with he | he
  · exact ha.1 e he
  · exact hb.1 e he

/-- The rule of a loop for a predicate that holds of every answered question. -/
theorem After.foldlM_forall {P : Answered A → Prop} {V : α → Prop} {f : α → γ → Dialogue ω A ε α}
    (hf : ∀ a c, V a → (f a c).After fun h b => (∀ e ∈ h, P e) ∧ V b) (l : List γ) {a : α}
    (h : V a) : (l.foldlM f a).After fun h b => (∀ e ∈ h, P e) ∧ V b := by
  induction l generalizing a with
  | nil => exact After.pure ⟨fun _ he => absurd he List.not_mem_nil, h⟩
  | cons c l ih => exact After.bind_forall (hf a c h) fun b hb => ih hb

/-- The rule of a loop over a list: the invariant `I` is about the elements the loop has passed. -/
theorem After.foldlM {f : α → γ → Dialogue ω A ε α} {I : List γ → List (Answered A) → α → Prop}
    (hf : ∀ l c h a, I l h a → (f a c).After fun h' b => I (l ++ [c]) (h ++ h') b) (l : List γ)
    {a : α} (h : I [] [] a) : (l.foldlM f a).After (I l) := by
  -- the induction is on what is left of the list, with what the loop has passed in the invariant
  suffices hloop : ∀ passed h a, I passed h a →
      (l.foldlM f a).After fun h' b => I (passed ++ l) (h ++ h') b from hloop [] [] a h
  induction l with
  | nil =>
    intro passed h a hI
    rw [List.append_nil]
    exact After.pure (by rwa [List.append_nil])
  | cons c l ih =>
    intro passed h a hI
    rw [List.foldlM_cons]
    refine After.bind ((hf passed c h a hI).mono fun h' b hb => ?_)
    refine (ih (passed ++ [c]) (h ++ h') b hb).mono fun h'' b' hb' => ?_
    rwa [List.append_assoc, List.append_assoc] at hb'

/-- What the rules prove holds for all environments. -/
theorem After.runs (hm : m.After Q) (answer : ρ → (q : ω) → A q) (envs : ℕ → ρ) :
    ∃ a, (m.runs answer envs).1 = .ok a ∧ Q (m.runs answer envs).2 a := by
  induction m generalizing Q envs with
  | done r =>
    cases r with
    | error e => exact hm.elim
    | ok a => exact ⟨a, rfl, hm⟩
  | ask q next ih => exact ih (answer (envs 0) q) (hm _) fun n => envs (n + 1)

end Dialogue
