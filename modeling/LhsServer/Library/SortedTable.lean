import Mathlib.Data.List.Induction
import Mathlib.Data.List.Sort

/-!
# Tables that are sorted after each insertion

A table is built from a list of entries by pushing each of them at the back and sorting. The entries
have a rank, and sorting puts the higher rank first; in which order it leaves entries of one rank is
not known. A lookup takes the first entry it is looking for.

- `Sorts`: what sorting by a comparison guarantees;
- `build_perm`, `build_pairwise`: the table holds the entries that were inserted, in order;
- `find?_build`: the lookup finds an entry of the highest rank among those it is looking for;
- `exists_sorts_find?_build`: which of these it finds depends on the sorting alone.
-/

namespace SortedTable

variable {α : Type}

/-- `sort` puts the entries of a list into an order in which none comes before (`lt`) one that
stands in front of it. -/
def Sorts (lt : α → α → Bool) (sort : List α → List α) : Prop :=
  ∀ l, (sort l).Perm l ∧ (sort l).Pairwise fun a b => lt b a = false

/-- The table after all entries have been inserted. -/
def build (sort : List α → List α) (xs : List α) : List α :=
  xs.foldl (fun table x => sort (table ++ [x])) []

/-- `m` is one of the highest entries that `p` holds for. -/
structure Highest (rank : α → ℕ) (p : α → Bool) (xs : List α) (m : α) : Prop where
  mem : m ∈ xs
  holds : p m
  le : ∀ x ∈ xs, p x → rank x ≤ rank m

/-- Sorting by the rank alone: entries of one rank stay in the order in which they stand. -/
def sortByRank (rank : α → ℕ) (l : List α) : List α :=
  l.insertionSort fun a b => rank b ≤ rank a

section Build

theorem build_append_singleton (sort : List α → List α) (xs : List α) (x : α) :
    build sort (xs ++ [x]) = sort (build sort xs ++ [x]) := by
  simp [build]

/-- What sorting establishes holds of the table. -/
theorem build_pairwise {sort : List α → List α} {R : α → α → Prop}
    (hsort : ∀ l, (sort l).Pairwise R) (xs : List α) : (build sort xs).Pairwise R := by
  induction xs using List.reverseRecOn with
  | nil => exact List.Pairwise.nil
  | append_singleton xs x ih =>
    rw [build_append_singleton]
    exact hsort _

theorem build_perm {sort : List α → List α} (hsort : ∀ l, (sort l).Perm l) (xs : List α) :
    (build sort xs).Perm xs := by
  induction xs using List.reverseRecOn with
  | nil => exact List.Perm.nil
  | append_singleton xs x ih =>
    rw [build_append_singleton]
    exact (hsort _).trans (ih.append_right [x])

/-- The lookup fails only when no entry is looked for. -/
theorem find?_build_eq_none_iff {sort : List α → List α} (hsort : ∀ l, (sort l).Perm l)
    {p : α → Bool} {xs : List α} : (build sort xs).find? p = none ↔ ∀ x ∈ xs, ¬p x := by
  rw [List.find?_eq_none]
  exact forall_congr' fun x => by rw [(build_perm hsort xs).mem_iff]

/-- An entry that is looked for does not stand in front of the one that is found. -/
theorem find?_build_eq_some {sort : List α → List α} (hperm : ∀ l, (sort l).Perm l)
    {R : α → α → Prop} (hsort : ∀ l, (sort l).Pairwise R) {p : α → Bool} {xs : List α} {m : α}
    (h : (build sort xs).find? p = some m) :
    m ∈ xs ∧ p m ∧ ∀ x ∈ xs, p x → x = m ∨ R m x := by
  obtain ⟨hm, front, back, htable, hfront⟩ := List.find?_eq_some_iff_append.mp h
  have hmem : ∀ x, x ∈ xs ↔ x ∈ front ++ m :: back := fun x => by
    rw [← htable, (build_perm hperm xs).mem_iff]
  refine ⟨(hmem m).mpr (by simp), hm, fun x hx hpx => ?_⟩
  rcases List.mem_append.mp ((hmem x).mp hx) with hx | hx
  · have hnot := hfront x hx
    rw [hpx] at hnot
    cases hnot
  · rcases List.mem_cons.mp hx with rfl | hx
    · exact Or.inl rfl
    · have hpair := build_pairwise hsort xs
      rw [htable, List.pairwise_append, List.pairwise_cons] at hpair
      exact Or.inr (hpair.2.1.1 x hx)

end Build

section Rank

variable {lt : α → α → Bool} {rank : α → ℕ} (hlt : ∀ a b, lt a b = true ↔ rank b < rank a)

include hlt

/-- The lookup finds an entry of the highest rank. -/
theorem find?_build {sort : List α → List α} (hsort : Sorts lt sort) {p : α → Bool} {xs : List α}
    {m : α} (h : (build sort xs).find? p = some m) : Highest rank p xs m := by
  obtain ⟨hmem, hm, hbehind⟩ :=
    find?_build_eq_some (fun l => (hsort l).1) (fun l => (hsort l).2) h
  refine ⟨hmem, hm, fun x hx hpx => ?_⟩
  rcases hbehind x hx hpx with rfl | hle
  · exact Nat.le_refl _
  · rw [← Bool.not_eq_true, hlt] at hle
    exact Nat.le_of_not_lt hle

/-- Sorting by an order that puts no entry in front of one of a higher rank. -/
theorem sorts_insertionSort {le : α → α → Prop} [DecidableRel le] [Std.Total le] [IsTrans α le]
    (hle : ∀ a b, le a b → rank b ≤ rank a) : Sorts lt (List.insertionSort le) := by
  intro l
  refine ⟨List.perm_insertionSort le l, ?_⟩
  refine (List.pairwise_insertionSort le l).imp fun {a b} hab => ?_
  rw [← Bool.not_eq_true, hlt, Nat.not_lt]
  exact hle a b hab

theorem sorts_sortByRank : Sorts lt (sortByRank rank) :=
  haveI : Std.Total fun a b : α => rank b ≤ rank a := ⟨fun a b => Nat.le_total (rank b) (rank a)⟩
  haveI : IsTrans α fun a b => rank b ≤ rank a := ⟨fun _ _ _ hab hbc => Nat.le_trans hbc hab⟩
  sorts_insertionSort hlt fun _ _ hab => hab

open Classical in
/-- Sorting that puts `m` before the other entries of its rank. -/
theorem exists_sorts_find?_build {p : α → Bool} {xs : List α} {m : α} (h : Highest rank p xs m) :
    ∃ sort, Sorts lt sort ∧ (build sort xs).find? p = some m := by
  let le : α → α → Prop := fun a b => rank b < rank a ∨ rank b = rank a ∧ (a = m ∨ b ≠ m)
  have htotal : Std.Total le := ⟨by grind⟩
  have htrans : IsTrans α le := ⟨by grind⟩
  have hsorts : Sorts lt (List.insertionSort le) := sorts_insertionSort hlt (by grind)
  have hperm := List.perm_insertionSort le
  refine ⟨_, hsorts, ?_⟩
  cases hfind : (build (List.insertionSort le) xs).find? p with
  | none => exact absurd h.holds ((find?_build_eq_none_iff hperm).mp hfind m h.mem)
  | some m' =>
    obtain ⟨hmem, hm', hbehind⟩ :=
      find?_build_eq_some hperm (List.pairwise_insertionSort le) hfind
    rcases hbehind m h.mem h.holds with rfl | hle
    · rfl
    -- behind an entry of its own rank there is `m` only if that is `m` too
    · have hrank := h.le m' hmem hm'
      grind

end Rank

end SortedTable
