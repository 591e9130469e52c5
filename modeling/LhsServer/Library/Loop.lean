import Mathlib.Order.Basic

/-!
# Loops

A loop whose body either hands on a state to the next pass or stops with a result, be it a value or
an exception.

- `Reaches.invariant`: what holds at the start and is kept by every pass, of the state after each
  number of passes;
- `Ends`: the loop stops in a certain pass with a certain result, however long it is run;
- `exists_ends`: a loop with an invariant that bounds the number of passes stops.
-/

/-- What a pass through the body of a loop leads to. -/
inductive Pass (σ β : Type) where
  | next (s : σ)
  | stop (b : β)

namespace Loop

variable {σ β : Type} {body : σ → Pass σ β} {s₀ s : σ} {n : ℕ} {b : β}

/-- The result of the loop, if it stops within `fuel` passes. -/
def run (body : σ → Pass σ β) : ℕ → σ → Option β
  | 0, _ => none
  | fuel + 1, s =>
    match body s with
    | .next s' => run body fuel s'
    | .stop b => some b

/-- The loop is in the state `s` after `n` passes. -/
inductive Reaches (body : σ → Pass σ β) (s₀ : σ) : ℕ → σ → Prop
  | start : Reaches body s₀ 0 s₀
  | next {n : ℕ} {s s' : σ} : Reaches body s₀ n s → body s = .next s' → Reaches body s₀ (n + 1) s'

/-- The loop stops with `b` in the pass number `n`, and not before. -/
def Ends (body : σ → Pass σ β) (s₀ : σ) (n : ℕ) (b : β) : Prop :=
  ∀ fuel, run body fuel s₀ = if n ≤ fuel then some b else none

/-- An invariant that may speak of the number of passes holds after every pass. -/
theorem Reaches.invariant {I : ℕ → σ → Prop} (hstart : I 0 s₀)
    (hnext : ∀ n s s', I n s → body s = .next s' → I (n + 1) s') (h : Reaches body s₀ n s) :
    I n s := by
  induction h with
  | start => exact hstart
  | next _ hbody ih => exact hnext _ _ _ ih hbody

theorem Reaches.run_add (h : Reaches body s₀ n s) (fuel : ℕ) :
    run body (n + fuel) s₀ = run body fuel s := by
  induction h generalizing fuel with
  | start => rw [Nat.zero_add]
  | next _ hbody ih =>
    rw [Nat.add_assoc, ih, Nat.add_comm, run, hbody]

/-- A loop that is in some state after `n` passes has not stopped in any of them. -/
theorem Reaches.run_eq_none (h : Reaches body s₀ n s) {fuel : ℕ} (hle : fuel ≤ n) :
    run body fuel s₀ = none := by
  induction h with
  | start =>
    rw [Nat.le_zero.mp hle]
    rfl
  | next hs hbody ih =>
    rcases Nat.le_succ_iff.mp hle with hle | rfl
    · exact ih hle
    · rw [Nat.succ_eq_add_one, hs.run_add, run, hbody]
      rfl

/-- The loop ends with the first pass that stops. -/
theorem Ends.of_reaches (h : Reaches body s₀ n s) (hbody : body s = .stop b) :
    Ends body s₀ (n + 1) b := by
  intro fuel
  split
  · rename_i hle
    obtain ⟨k, rfl⟩ := Nat.exists_eq_add_of_le hle
    rw [Nat.add_assoc, h.run_add, Nat.add_comm, run, hbody]
  · rename_i hlt
    exact h.run_eq_none (by omega)

/-- A loop with an invariant that bounds the number of passes stops, in a state in which the
invariant holds. -/
theorem exists_ends {I : ℕ → σ → Prop} {bound : ℕ} (hstart : I 0 s₀)
    (hnext : ∀ n s s', I n s → body s = .next s' → I (n + 1) s')
    (hbound : ∀ n s, I n s → n ≤ bound) :
    ∃ n s b, I n s ∧ body s = .stop b ∧ Ends body s₀ (n + 1) b := by
  by_contra hnone
  -- otherwise every pass is followed by another one
  have hreaches : ∀ n, ∃ s, Reaches body s₀ n s := by
    intro n
    induction n with
    | zero => exact ⟨s₀, .start⟩
    | succ n ih =>
      obtain ⟨s, hs⟩ := ih
      cases hbody : body s with
      | next s' => exact ⟨s', hs.next hbody⟩
      | stop b =>
        exact absurd ⟨n, s, b, hs.invariant hstart hnext, hbody, .of_reaches hs hbody⟩ hnone
  obtain ⟨s, hs⟩ := hreaches (bound + 1)
  have hle := hbound _ _ (hs.invariant hstart hnext)
  omega

end Loop
