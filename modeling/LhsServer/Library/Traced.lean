import Mathlib.Order.Basic

/-!
# Computations that leave a trace

A computation of type `Traced ρ ω ε α` runs in an environment `ρ` that it can only question. It
records every question as an event in `ω` and ends with a value in `α` or an error in `ε`. The two
halves of a run are read separately: `value` is the result, `trace` the events in order.

- `Traced.call`: ask one question;
- `Traced.Triple`: every event of the computation satisfies a predicate, and so does its value;
- `Traced.Triple.bind`, `Traced.Triple.call`, ...: the rules by which a triple follows the program;
- `Traced.AtMost`: how many events of one kind there are at most, with the same rules.
-/

/-- A computation over the environment `ρ` with events `ω`, errors `ε` and values `α`. -/
def Traced (ρ ω ε α : Type) : Type := ρ → Except ε α × List ω

namespace Traced

variable {ρ ω ε α β : Type}

/-- The result of a run. -/
def value (m : Traced ρ ω ε α) (env : ρ) : Except ε α := (m env).1

/-- The events of a run, in order. -/
def trace (m : Traced ρ ω ε α) (env : ρ) : List ω := (m env).2

protected def pure (a : α) : Traced ρ ω ε α := fun _ => (.ok a, [])

/-- Run `m`, and unless it fails run `f` on its value; the traces are concatenated. -/
protected def bind (m : Traced ρ ω ε α) (f : α → Traced ρ ω ε β) : Traced ρ ω ε β := fun env =>
  match m env with
  | (.error e, t) => (.error e, t)
  | (.ok a, t) => ((f a env).1, t ++ (f a env).2)

instance : Monad (Traced ρ ω ε) where
  pure := Traced.pure
  bind := Traced.bind

/-- Record the event `e` and take the environment's answer. -/
def call (e : ω) (answer : ρ → α) : Traced ρ ω ε α := fun env => (.ok (answer env), [e])

/-- A computation that asks nothing. -/
def lift (r : Except ε α) : Traced ρ ω ε α := fun _ => (r, [])

/-- Returning the value that was computed changes nothing. -/
theorem bind_pure (m : Traced ρ ω ε α) : m >>= pure = m := by
  funext env
  show Traced.bind m Traced.pure env = m env
  unfold Traced.bind Traced.pure
  rcases m env with ⟨_ | a, t⟩
  · rfl
  · simp only [List.append_nil]

theorem pure_bind (a : α) (f : α → Traced ρ ω ε β) : pure a >>= f = f a := rfl

/-- Three computations in a row can be grouped either way. -/
theorem bind_assoc {γ : Type} (m : Traced ρ ω ε α) (f : α → Traced ρ ω ε β)
    (g : β → Traced ρ ω ε γ) : m >>= f >>= g = m >>= fun a => f a >>= g := by
  funext env
  show Traced.bind (Traced.bind m f) g env = Traced.bind m (fun a => Traced.bind (f a) g) env
  unfold Traced.bind
  rcases m env with ⟨_ | a, t⟩
  · rfl
  · rcases hf : f a env with ⟨_ | b, t'⟩
    · simp only [hf]
    · simp only [hf, List.append_assoc]

/-! ## The value of a run -/

@[simp] theorem ok_bind (a : α) (f : α → Except ε β) : (Except.ok a >>= f) = f a := rfl

@[simp] theorem error_bind (e : ε) (f : α → Except ε β) :
    (Except.error e >>= f) = Except.error e := rfl

@[simp] theorem value_pure (a : α) (env : ρ) :
    (pure a : Traced ρ ω ε α).value env = .ok a := rfl

@[simp] theorem value_call (e : ω) (answer : ρ → α) (env : ρ) :
    (call e answer : Traced ρ ω ε α).value env = .ok (answer env) := rfl

@[simp] theorem value_lift (r : Except ε α) (env : ρ) :
    (lift r : Traced ρ ω ε α).value env = r := rfl

/-- The value of a composition. -/
@[simp] theorem value_bind (m : Traced ρ ω ε α) (f : α → Traced ρ ω ε β) (env : ρ) :
    (m >>= f).value env = m.value env >>= fun a => (f a).value env := by
  show (Traced.bind m f env).1 = (m env).1 >>= fun a => (f a env).1
  unfold Traced.bind
  rcases m env with ⟨_ | a, t⟩ <;> rfl

/-- The value of a branch. -/
@[simp] theorem value_ite (c : Prop) [Decidable c] (m n : Traced ρ ω ε α) (env : ρ) :
    (if c then m else n).value env = if c then m.value env else n.value env := by
  split <;> rfl

/-- A result that is at hand is handed on. -/
theorem lift_ok_bind (a : α) (f : α → Traced ρ ω ε β) :
    (lift (.ok a) : Traced ρ ω ε α) >>= f = f a := rfl

/-! ## The trace of a run -/

/-- The trace of a composition: the second half runs only when the first has a value. -/
theorem trace_bind (m : Traced ρ ω ε α) (f : α → Traced ρ ω ε β) (env : ρ) :
    (m >>= f).trace env =
      m.trace env ++ match m.value env with
        | .ok a => (f a).trace env
        | .error _ => [] := by
  show (Traced.bind m f env).2 = (m env).2 ++ match (m env).1 with
    | .ok a => (f a env).2
    | .error _ => []
  unfold Traced.bind
  rcases m env with ⟨_ | a, t⟩
  · exact (List.append_nil t).symm
  · rfl

/-! ## Triples -/

/-- Every event of `m` satisfies `P`, and so does its value with `Q` when there is one. -/
def Triple (P : ω → Prop) (m : Traced ρ ω ε α) (Q : α → Prop) : Prop :=
  ∀ env, (∀ e ∈ m.trace env, P e) ∧ ∀ a, m.value env = .ok a → Q a

variable {P : ω → Prop} {Q : α → Prop} {R : β → Prop}

/-- A computation without events. -/
theorem Triple.pure {a : α} (h : Q a) : Triple P (Pure.pure a : Traced ρ ω ε α) Q := by
  intro env
  refine ⟨by simp [trace, Pure.pure, Traced.pure], fun b hb => ?_⟩
  rw [value_pure] at hb
  cases hb
  exact h

/-- The rule of one event. -/
theorem Triple.call {e : ω} {answer : ρ → α} (he : P e) (h : ∀ env, Q (answer env)) :
    Triple P (Traced.call e answer : Traced ρ ω ε α) Q := by
  intro env
  refine ⟨by simpa [trace, Traced.call] using he, fun b hb => ?_⟩
  rw [value_call] at hb
  cases hb
  exact h env

/-- One question, about whose answer nothing is said. -/
theorem Triple.ask {e : ω} {answer : ρ → α} (he : P e) :
    Triple P (Traced.call e answer : Traced ρ ω ε α) fun _ => True :=
  Triple.call he fun _ => trivial

/-- A computation that can only fail. -/
theorem Triple.lift {r : Except ε α} (h : ∀ a, r = .ok a → Q a) :
    Triple P (Traced.lift r : Traced ρ ω ε α) Q :=
  fun _ => ⟨by simp [trace, Traced.lift], h⟩

/-- The rule of composition: the value of the first half is the precondition of the second. -/
theorem Triple.bind {m : Traced ρ ω ε α} {f : α → Traced ρ ω ε β} (hm : Triple P m Q)
    (hf : ∀ a, Q a → Triple P (f a) R) : Triple P (m >>= f) R := by
  intro env
  obtain ⟨htrace, hvalue⟩ := hm env
  show (∀ e ∈ (Traced.bind m f env).2, P e) ∧ ∀ b, (Traced.bind m f env).1 = .ok b → R b
  unfold Traced.bind
  rcases hmenv : m env with ⟨_ | a, t⟩
  -- `m` has failed: its events are all there are, and there is no value
  · have ht : m.trace env = t := by rw [trace, hmenv]
    exact ⟨ht ▸ htrace, fun b hb => nomatch hb⟩
  -- the events of `m` come first, then those of `f` on its value
  · have ht : m.trace env = t := by rw [trace, hmenv]
    have ha : Q a := hvalue a (by rw [value, hmenv])
    obtain ⟨hftrace, hfvalue⟩ := hf a ha env
    refine ⟨fun e he => ?_, hfvalue⟩
    rcases List.mem_append.mp he with he | he
    · exact htrace e (ht ▸ he)
    · exact hftrace e he

/-- The rule of a branch: each side can use the condition. -/
theorem Triple.ite {c : Prop} [Decidable c] {m n : Traced ρ ω ε α}
    (hm : c → Triple P m Q) (hn : ¬c → Triple P n Q) : Triple P (if c then m else n) Q := by
  split
  · exact hm ‹_›
  · exact hn ‹_›

/-- The rule of a loop over a list: `Q` is its invariant. -/
theorem Triple.foldlM {γ : Type} {f : α → γ → Traced ρ ω ε α}
    (hf : ∀ a c, Q a → Triple P (f a c) Q) (l : List γ) {a : α} (h : Q a) :
    Triple P (l.foldlM f a) Q := by
  induction l generalizing a with
  | nil => exact Triple.pure h
  | cons c l ih => exact Triple.bind (hf a c h) fun b hb => ih hb

/-! ## Counting events -/

section AtMost

variable {q : ρ → ω → Bool} {m : Traced ρ ω ε α} {k n : ℕ}

/-- At most `n` events of a run are of the kind `q`, which can depend on the environment. -/
def AtMost (q : ρ → ω → Bool) (m : Traced ρ ω ε α) (n : ℕ) : Prop :=
  ∀ env, (m.trace env).countP (q env) ≤ n

/-- A weaker bound. -/
theorem AtMost.mono (h : AtMost q m k) (hle : k ≤ n) : AtMost q m n := fun env =>
  Nat.le_trans (h env) hle

theorem AtMost.pure (a : α) : AtMost q (Pure.pure a : Traced ρ ω ε α) n := fun _ => Nat.zero_le _

theorem AtMost.lift (r : Except ε α) : AtMost q (Traced.lift r : Traced ρ ω ε α) n :=
  fun _ => Nat.zero_le _

/-- One question. -/
theorem AtMost.call (e : ω) (answer : ρ → α) :
    AtMost q (Traced.call e answer : Traced ρ ω ε α) 1 := fun env =>
  List.countP_le_length (p := q env) (l := [e])

/-- The rule of composition: the bounds are added. -/
theorem AtMost.bind {f : α → Traced ρ ω ε β} (hm : AtMost q m k) (hf : ∀ a, AtMost q (f a) n) :
    AtMost q (m >>= f) (k + n) := by
  intro env
  rw [trace_bind, List.countP_append]
  refine Nat.add_le_add (hm env) ?_
  cases m.value env with
  | error e => exact Nat.zero_le _
  | ok a => exact hf a env

/-- The first half asks nothing of this kind. -/
theorem AtMost.zero_bind {f : α → Traced ρ ω ε β} (hm : AtMost q m 0)
    (hf : ∀ a, AtMost q (f a) n) : AtMost q (m >>= f) n :=
  (hm.bind hf).mono (Nat.le_of_eq (Nat.zero_add n))

/-- The rule of a branch: the larger bound of both sides. -/
theorem AtMost.ite {c : Prop} [Decidable c] {m' : Traced ρ ω ε α} (hm : AtMost q m n)
    (hm' : AtMost q m' n) : AtMost q (if c then m else m') n := by
  split
  · exact hm
  · exact hm'

/-- The rule of a loop over a list, no pass of which asks a question of this kind. -/
theorem AtMost.foldlM {γ : Type} {f : α → γ → Traced ρ ω ε α} (hf : ∀ a c, AtMost q (f a c) 0)
    (l : List γ) (a : α) : AtMost q (l.foldlM f a) 0 := by
  induction l generalizing a with
  | nil => exact AtMost.pure a
  | cons c l ih => exact (hf a c).zero_bind ih

end AtMost

end Traced
