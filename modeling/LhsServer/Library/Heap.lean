import Mathlib.Data.List.Nodup
import Mathlib.Logic.Relation
import Std.Data.ExtTreeMap

/-!
# Objects that own objects

A heap of objects, each of which may own another one through a pointer. Deleting an object ends its
life and then deletes what it owns, as destructors do; deleting what is not alive is undefined. An
object may hold further pointers to objects that it does not own.

- `Heap.Chain`: the objects that are owned one by the other, from a pointer on;
- `Heap.delete_eq_some_iff`: deleting is defined when the chain is finite, and takes away exactly
  the objects on it;
- `Heap.Below`: what can be reached from an object through any pointers.
-/

/-- Objects under their addresses. -/
abbrev Heap (Obj : Type) : Type := Std.ExtTreeMap ℕ Obj

namespace Heap

variable {Obj : Type}

/-! ## Operations -/

/-- A new object at an address that is free. -/
def new (heap : Heap Obj) (a : ℕ) (o : Obj) : Option (Heap Obj) :=
  if heap[a]? = none then some (heap.insert a o) else none

/-- The heap gets smaller when an object dies. -/
theorem size_erase_lt {heap : Heap Obj} {a : ℕ} {o : Obj} (h : heap[a]? = some o) :
    (heap.erase a).size < heap.size := by
  have hcontains : heap.contains a = true := by
    rw [Std.ExtTreeMap.contains_eq_isSome_getElem?, h]
    rfl
  have hne : heap.size ≠ 0 := fun hzero => by
    simp [Std.ExtTreeMap.eq_empty_iff_size_eq_zero.mpr hzero] at h
  rw [Std.ExtTreeMap.size_erase, if_pos hcontains]
  exact Nat.sub_one_lt hne

/-- Delete the object behind a pointer, and what it owns; a null pointer is left alone. -/
def delete (owned : Obj → Option ℕ) (heap : Heap Obj) : Option ℕ → Option (Heap Obj)
  | none => some heap
  | some a =>
    match h : heap[a]? with
    | none => none
    | some o =>
      have := size_erase_lt h
      delete owned (heap.erase a) (owned o)
termination_by heap.size

/-- The heap without some objects. -/
def without (heap : Heap Obj) (as : List ℕ) : Heap Obj :=
  as.foldl (fun heap a => heap.erase a) heap

variable {owned : Obj → Option ℕ} {heap heap' : Heap Obj} {a b : ℕ} {o : Obj}

/-- `new` returns an address at which nothing is alive. -/
theorem new_eq_some_iff :
    heap.new a o = some heap' ↔ heap[a]? = none ∧ heap' = heap.insert a o := by
  rw [new, Option.ite_none_right_eq_some, Option.some.injEq, eq_comm (a := heap')]

/-- What is alive after `new`. -/
theorem getElem?_insert (heap : Heap Obj) (a b : ℕ) (o : Obj) :
    (heap.insert a o)[b]? = if b = a then some o else heap[b]? := by
  simp only [Std.ExtTreeMap.getElem?_insert, Nat.compare_eq_eq, eq_comm (b := b)]

theorem getElem?_insert_eq_none_iff :
    (heap.insert a o)[b]? = none ↔ b ≠ a ∧ heap[b]? = none := by
  rw [getElem?_insert]
  split <;> simp [*]

theorem getElem?_erase_of_ne (h : a ≠ b) : (heap.erase a)[b]? = heap[b]? := by
  rw [Std.ExtTreeMap.getElem?_erase, if_neg]
  simpa using h

@[simp] theorem delete_none (owned : Obj → Option ℕ) (heap : Heap Obj) :
    heap.delete owned none = some heap := by
  rw [delete]

/-- An object dies before what it owns is deleted. -/
theorem delete_of_alive (h : heap[a]? = some o) :
    heap.delete owned (some a) = delete owned (heap.erase a) (owned o) := by
  rw [delete]
  split
  · next hnone =>
    rw [h] at hnone
    cases hnone
  · next o' hsome =>
    rw [h] at hsome
    rw [Option.some.inj hsome]

/-- Deleting what is not alive is undefined. -/
theorem delete_of_dead (h : heap[a]? = none) : heap.delete owned (some a) = none := by
  rw [delete]
  split
  · rfl
  · next o' hsome =>
    rw [h] at hsome
    cases hsome

/-- What is alive behind the end of some objects. -/
theorem getElem?_without (as : List ℕ) (b : ℕ) :
    (heap.without as)[b]? = if b ∈ as then none else heap[b]? := by
  induction as generalizing heap with
  | nil => rfl
  | cons a as ih =>
    rw [without, List.foldl_cons, ← without, ih]
    by_cases hab : a = b
    · subst hab
      simp
    · simp [getElem?_erase_of_ne hab, Ne.symm hab]

theorem getElem?_without_of_not_mem {as : List ℕ} (h : b ∉ as) :
    (heap.without as)[b]? = heap[b]? := by
  rw [getElem?_without, if_neg h]

/-! ## Chains -/

/-- The objects on the way from a pointer to a null pointer, each owned by the one before. -/
inductive Chain (owned : Obj → Option ℕ) (heap : Heap Obj) : Option ℕ → List ℕ → Prop
  | nil : Chain owned heap none []
  | cons {a : ℕ} {o : Obj} {as : List ℕ} (h : heap[a]? = some o)
      (hrest : Chain owned heap (owned o) as) : Chain owned heap (some a) (a :: as)

namespace Chain

variable {p : Option ℕ} {as bs : List ℕ}

/-- A pointer has one chain. -/
theorem unique (h : Chain owned heap p as) (h' : Chain owned heap p bs) : as = bs := by
  induction h generalizing bs with
  | nil =>
    cases h'
    rfl
  | cons ha _ ih =>
    cases h' with
    | cons ha' hrest' =>
      obtain rfl := Option.some.inj (ha.symm.trans ha')
      rw [ih hrest']

/-- From every object on a chain on there is a chain. -/
theorem exists_suffix (h : Chain owned heap p as) (hb : b ∈ as) :
    ∃ bs, Chain owned heap (some b) (b :: bs) ∧ (b :: bs) <:+ as := by
  induction h with
  | nil => cases hb
  | @cons a o as ha hrest ih =>
    rcases List.mem_cons.mp hb with rfl | hb
    · exact ⟨as, .cons ha hrest, List.suffix_rfl⟩
    · obtain ⟨bs, hbs, hsuffix⟩ := ih hb
      exact ⟨bs, hbs, hsuffix.trans (List.suffix_cons a as)⟩

/-- No object is on a chain twice: from there on the chain would not end. -/
theorem nodup (h : Chain owned heap p as) : as.Nodup := by
  induction h with
  | nil => exact List.nodup_nil
  | @cons a o as ha hrest ih =>
    refine List.nodup_cons.mpr ⟨fun hmem => ?_, ih⟩
    obtain ⟨bs, hbs, hsuffix⟩ := hrest.exists_suffix hmem
    have hlength := congrArg List.length (hbs.unique (.cons ha hrest))
    have hle := hsuffix.length_le
    simp only [List.length_cons] at hlength hle
    omega

/-- A chain is still there in a heap that is the same along it. -/
theorem congr (h : Chain owned heap p as) (hsame : ∀ a ∈ as, heap'[a]? = heap[a]?) :
    Chain owned heap' p as := by
  induction h with
  | nil => exact .nil
  | @cons a o as ha hrest ih =>
    refine .cons ?_ (ih fun b hb => hsame b (List.mem_cons_of_mem a hb))
    rw [hsame a List.mem_cons_self, ha]

/-- The objects of a chain are alive. -/
theorem isSome_of_mem (h : Chain owned heap p as) (hb : b ∈ as) : ∃ o, heap[b]? = some o := by
  obtain ⟨bs, hbs, -⟩ := h.exists_suffix hb
  cases hbs with
  | cons hb _ => exact ⟨_, hb⟩

end Chain

/-! ## Deleting -/

section Delete

variable {p : Option ℕ} {as : List ℕ}

/-- What is on a chain is taken away. -/
theorem Chain.delete (h : Chain owned heap p as) :
    heap.delete owned p = some (heap.without as) := by
  induction as generalizing heap p with
  | nil =>
    cases h
    rw [delete_none]
    rfl
  | cons a as ih =>
    have hnodup := List.nodup_cons.mp h.nodup
    cases h with
    | cons ha hrest =>
      rw [delete_of_alive ha]
      refine ih (hrest.congr fun b hb => getElem?_erase_of_ne ?_)
      rintro rfl
      exact hnodup.1 hb

/-- Deleting is undefined where the chain runs into an object that is not alive, or in a circle. -/
theorem chain_of_delete (h : heap.delete owned p = some heap') :
    ∃ as, Chain owned heap p as := by
  induction hn : heap.size using Nat.strongRecOn generalizing heap p with
  | ind n ih =>
  subst hn
  cases p with
  | none => exact ⟨[], .nil⟩
  | some a =>
    rcases ha : heap[a]? with _ | o
    · rw [delete_of_dead ha] at h
      cases h
    · rw [delete_of_alive ha] at h
      obtain ⟨as, has⟩ := ih _ (size_erase_lt ha) h rfl
      have hnot : a ∉ as := fun hmem => by
        obtain ⟨o', ho'⟩ := has.isSome_of_mem hmem
        simp at ho'
      refine ⟨a :: as, .cons ha (has.congr fun b hb => (getElem?_erase_of_ne ?_).symm)⟩
      rintro rfl
      exact hnot hb

/-- `delete` is defined for the start of a chain, and ends the life of its objects. -/
theorem delete_eq_some_iff :
    heap.delete owned p = some heap' ↔ ∃ as, Chain owned heap p as ∧ heap' = heap.without as := by
  constructor
  · intro h
    obtain ⟨as, has⟩ := chain_of_delete h
    rw [has.delete, Option.some.injEq] at h
    exact ⟨as, has, h.symm⟩
  · rintro ⟨as, has, rfl⟩
    exact has.delete

end Delete

/-! ## Reachable objects -/

/-- The object at `a` holds a pointer to `b`. -/
def Points (pointers : Obj → List ℕ) (heap : Heap Obj) (a b : ℕ) : Prop :=
  ∃ o, heap[a]? = some o ∧ b ∈ pointers o

/-- What is reached from `a` through pointers, `a` included. -/
def Below (pointers : Obj → List ℕ) (heap : Heap Obj) : ℕ → ℕ → Prop :=
  Relation.ReflTransGen (Points pointers heap)

/-- Every way through pointers from `a` on ends. -/
def Grounded (pointers : Obj → List ℕ) (heap : Heap Obj) : ℕ → Prop :=
  Acc fun b a => Points pointers heap a b

section Below

variable {pointers : Obj → List ℕ} {as : List ℕ} {c : ℕ}

/-- No way leads back to where it began. -/
theorem Grounded.not_below (h : Grounded pointers heap a) (hab : Points pointers heap a b) :
    ¬Below pointers heap b a := by
  induction h generalizing b with
  | intro a _ ih =>
    intro hba
    -- then `b` would lie on the same way
    rcases Relation.ReflTransGen.cases_head hba with rfl | ⟨c, hbc, hca⟩
    · exact ih b hab hab .refl
    · exact ih b hab hbc (hca.tail hab)

/-- What lies below an address from which no way goes on for ever is such an address, too. -/
theorem Grounded.of_below (h : Grounded pointers heap a) (hab : Below pointers heap a b) :
    Grounded pointers heap b := by
  induction hab with
  | refl => exact h
  | tail _ hbc ih => exact ih.inv hbc

/-- A chain goes through pointers. -/
theorem Chain.reaches (howned : ∀ o b, owned o = some b → b ∈ pointers o)
    (h : Chain owned heap (some a) as) (hb : b ∈ as) : Below pointers heap a b := by
  induction as generalizing a with
  | nil => cases hb
  | cons a' as ih =>
    cases h with
    | @cons _ o _ ha hrest =>
      rcases List.mem_cons.mp hb with rfl | hb
      · exact .refl
      · cases hnext : owned o with
        | none =>
          rw [hnext] at hrest
          cases hrest
          cases hb
        | some c =>
          rw [hnext] at hrest
          exact .head ⟨o, ha, howned o c hnext⟩ (ih hrest hb)

/-- An object that owns nothing is the last one on a chain. -/
theorem Chain.suffix_of_last {p : Option ℕ} {last : ℕ} (h : Chain owned heap p as)
    (hlast : last ∈ as) (ho : heap[last]? = some o) (hends : owned o = none) : [last] <:+ as := by
  obtain ⟨ls, hls, hsuffix⟩ := h.exists_suffix hlast
  cases hls with
  | cons hl hrest =>
    obtain rfl := Option.some.inj (hl.symm.trans ho)
    rw [hends] at hrest
    cases hrest
    exact hsuffix

/-- What the last object of a chain points to without owning it leads to no part of the chain. -/
theorem Chain.not_mem_of_below (howned : ∀ o b, owned o = some b → b ∈ pointers o)
    (h : Chain owned heap (some a) as) (hground : Grounded pointers heap a) {last : ℕ}
    (hlast : last ∈ as) (ho : heap[last]? = some o) (hends : owned o = none)
    (hb : b ∈ pointers o) (hbc : Below pointers heap b c) : c ∉ as := by
  intro hc
  -- from `c` on the chain ends at the last object, which leads back to `c`
  obtain ⟨cs, hcs, hsuffix⟩ := h.exists_suffix hc
  have hmem : last ∈ c :: cs :=
    (List.suffix_of_suffix_length_le (h.suffix_of_last hlast ho hends) hsuffix
      (Nat.succ_le_succ (Nat.zero_le _))).subset (List.mem_singleton_self last)
  exact (hground.of_below (h.reaches howned hlast)).not_below ⟨o, ho, hb⟩
    (hbc.trans (hcs.reaches howned hmem))

end Below

end Heap
