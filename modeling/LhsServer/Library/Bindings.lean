import Mathlib.Data.List.Basic
import Std.Data.ExtTreeMap
import Std.Data.ExtTreeMap.Lemmas

/-!
# Bindings entered one after the other

A list of bindings of keys to values is entered into a map from left to right, so that of two
bindings of one key the later counts.

- `last?`: the value the last binding of a key gives it;
- `last?_eq_some_iff`: where that binding stands;
- `get_foldl`: what a map holds after the bindings have been entered, for any map with a lookup that
  finds the value assigned last;
- `nodup_toList`, `getElem?_eq_last?`: the entries of a search tree bind every key once, so that
  they give the tree in any order.
-/

namespace Bindings

variable {K V : Type} [DecidableEq K]

/-- The value of the last binding of `k`. -/
def last? (k : K) : List (K × V) → Option V
  | [] => none
  | b :: bs => (last? k bs).or (if b.1 = k then some b.2 else none)

@[simp] theorem last?_nil (k : K) : last? k ([] : List (K × V)) = none := rfl

@[simp] theorem last?_cons (k : K) (b : K × V) (bs : List (K × V)) :
    last? k (b :: bs) = (last? k bs).or (if b.1 = k then some b.2 else none) := rfl

@[simp] theorem last?_append (k : K) (bs cs : List (K × V)) :
    last? k (bs ++ cs) = (last? k cs).or (last? k bs) := by
  induction bs with
  | nil => simp
  | cons b bs ih => rw [List.cons_append, last?_cons, ih, last?_cons, Option.or_assoc]

theorem last?_eq_none_iff {k : K} {bs : List (K × V)} :
    last? k bs = none ↔ ∀ b ∈ bs, b.1 ≠ k := by
  induction bs with
  | nil => simp
  | cons b bs ih => simp [ih, and_comm]

/-- The last binding of a key stands in front of bindings of other keys. -/
theorem last?_eq_some_iff {k : K} {v : V} {bs : List (K × V)} :
    last? k bs = some v ↔ ∃ l r, bs = l ++ (k, v) :: r ∧ ∀ b ∈ r, b.1 ≠ k := by
  constructor
  · intro h
    induction bs with
    | nil => simp at h
    | cons b bs ih =>
      rw [last?_cons, Option.or_eq_some_iff] at h
      rcases h with h | ⟨hnone, h⟩
      · obtain ⟨l, r, rfl, hr⟩ := ih h
        exact ⟨b :: l, r, rfl, hr⟩
      -- the first binding is the last of its key
      · obtain ⟨hk, hv⟩ := Option.ite_none_right_eq_some.mp h
        refine ⟨[], bs, ?_, last?_eq_none_iff.mp hnone⟩
        rw [← hk, ← Option.some.inj hv]
        rfl
  · rintro ⟨l, r, rfl, hr⟩
    rw [last?_append, last?_cons, last?_eq_none_iff.mpr hr]
    simp

/-- Where no key is bound twice, every binding counts. -/
theorem last?_of_nodup {bs : List (K × V)} (h : (bs.map Prod.fst).Nodup) {k : K} {v : V} :
    last? k bs = some v ↔ (k, v) ∈ bs := by
  rw [last?_eq_some_iff]
  constructor
  · rintro ⟨l, r, rfl, -⟩
    simp
  · intro hmem
    obtain ⟨l, r, rfl⟩ := List.append_of_mem hmem
    refine ⟨l, r, rfl, fun b hb heq => ?_⟩
    -- a later binding of `k` would be a second one
    rw [List.map_append, List.map_cons, List.nodup_append] at h
    exact (List.nodup_cons.mp h.2.1).1 (List.mem_map.mpr ⟨b, hb, heq⟩)

/-- After the bindings have been entered one after the other, the map holds the last value bound to
each key, and what it held before under the other keys. -/
theorem get_foldl {S : Type} (get : S → K → Option V) (put : S → K → V → S)
    (hput : ∀ s k v k', get (put s k v) k' = if k = k' then some v else get s k')
    (bs : List (K × V)) (s : S) (k : K) :
    get (bs.foldl (fun s b => put s b.1 b.2) s) k = (last? k bs).or (get s k) := by
  induction bs generalizing s with
  | nil => simp
  | cons b bs ih =>
    rw [List.foldl_cons, ih, hput, last?_cons, Option.or_assoc]
    congr 1
    split <;> simp

section Tree

variable [Ord K] [Std.TransOrd K] [Std.LawfulEqOrd K]

omit [DecidableEq K] in
/-- The keys of a search tree are distinct. -/
theorem nodup_toList (t : Std.ExtTreeMap K V) : (t.toList.map Prod.fst).Nodup := by
  rw [List.Nodup, List.pairwise_map]
  refine List.Pairwise.imp ?_ Std.ExtTreeMap.distinct_keys_toList
  intro a b hab heq
  exact hab (Std.LawfulEqCmp.compare_eq_iff_eq.mpr heq)

/-- The entries of a search tree, in any order, bind every key to what the tree holds under it. -/
theorem getElem?_eq_last? {t : Std.ExtTreeMap K V} {bs : List (K × V)} (h : bs.Perm t.toList)
    (k : K) : t[k]? = last? k bs := by
  have hnodup : (bs.map Prod.fst).Nodup := (h.map Prod.fst).nodup_iff.mpr (nodup_toList t)
  ext v
  rw [last?_of_nodup hnodup, h.mem_iff, Std.ExtTreeMap.mem_toList_iff_getElem?_eq_some]

end Tree

end Bindings
