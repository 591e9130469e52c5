import Mathlib.Data.List.Basic
import Mathlib.Data.List.TakeWhile

/-!
# Lexical normalisation of paths

Paths over an alphabet with a separator and a dot. A path is split at its separators; empty
components and the component `.` are dropped, and `..` removes the component before it. At the
start of an absolute path `..` is dropped too, at the start of a relative one it stays.

- `normalized_append_of_parent_not_mem`: what is appended to a path behind a separator, without a
  component `..`, leaves the components of the path in front;
- `infix_of_mem_splitOn`: a component is a part of the path;
- `squeeze`: a path with each run of separators as one, and what starts it.
-/

namespace LexPath

variable {α : Type} [DecidableEq α] (sep dot : α)

/-- The path starts with a separator. -/
def IsAbsolute (path : List α) : Prop := path.head? = some sep

instance (path : List α) : Decidable (IsAbsolute sep path) :=
  inferInstanceAs (Decidable (_ = _))

/-- Enter one component on the stack of those before it, the last one on top. -/
def push (absolute : Bool) (stack : List (List α)) (c : List α) : List (List α) :=
  if c = [] ∨ c = [dot] then stack
  else if c = [dot, dot] then
    match stack with
    | [] => if absolute then [] else [c]
    | top :: rest => if top = [dot, dot] then c :: stack else rest
  else c :: stack

/-- The components of the path after normalisation. -/
def normalized (path : List α) : List (List α) :=
  ((path.splitOn sep).foldl (push dot (decide (IsAbsolute sep path))) []).reverse

/-- The components that stand for themselves. -/
def proper (components : List (List α)) : List (List α) :=
  components.filter fun c => decide (c ≠ [] ∧ c ≠ [dot])

theorem push_of_dropped {c : List α} (hc : c = [] ∨ c = [dot]) (absolute : Bool)
    (stack : List (List α)) : push dot absolute stack c = stack := by
  unfold push
  rw [if_pos hc]

theorem push_of_proper {c : List α} (hc : ¬(c = [] ∨ c = [dot])) (hparent : c ≠ [dot, dot])
    (absolute : Bool) (stack : List (List α)) : push dot absolute stack c = c :: stack := by
  unfold push
  rw [if_neg hc, if_neg hparent]

/-- Components other than `..` are added to those that are there. -/
theorem foldl_push_of_parent_not_mem (absolute : Bool) {components : List (List α)}
    (h : [dot, dot] ∉ components) (stack : List (List α)) :
    components.foldl (push dot absolute) stack = (proper dot components).reverse ++ stack := by
  induction components generalizing stack with
  | nil => simp [proper]
  | cons c components ih =>
    simp only [List.mem_cons, not_or] at h
    rw [List.foldl_cons, ih h.2]
    -- a dropped component leaves the stack alone, any other is pushed on it
    by_cases hc : c = [] ∨ c = [dot]
    · have hproper : proper dot (c :: components) = proper dot components := by
        rw [proper, List.filter_cons_of_neg, proper]
        simpa [or_iff_not_imp_left] using hc
      rw [hproper, push_of_dropped dot hc]
    · have hproper : proper dot (c :: components) = c :: proper dot components := by
        rw [proper, List.filter_cons_of_pos, proper]
        simpa using hc
      rw [hproper, push_of_proper dot hc (Ne.symm h.1)]
      simp

variable {sep}

omit [DecidableEq α] in
theorem isAbsolute_append {path : List α} (hne : path ≠ []) (t : List α) :
    IsAbsolute sep (path ++ t) ↔ IsAbsolute sep path := by
  rw [IsAbsolute, IsAbsolute, List.head?_append_of_ne_nil _ hne]

/-- What is appended behind a separator, without a component `..`, leaves the components of the
path in front. -/
theorem normalized_append_of_parent_not_mem {path t : List α} (hne : path ≠ [])
    (h : [dot, dot] ∉ t.splitOn sep) :
    normalized sep dot (path ++ sep :: t) =
      normalized sep dot path ++ proper dot (t.splitOn sep) := by
  have habs : decide (IsAbsolute sep (path ++ sep :: t)) = decide (IsAbsolute sep path) := by
    simp only [isAbsolute_append hne]
  rw [normalized, normalized, habs, List.splitOn_append_cons_self, List.foldl_append,
    foldl_push_of_parent_not_mem dot _ h, List.reverse_append, List.reverse_reverse]

/-- A component of a path is a part of it. -/
theorem infix_of_mem_splitOn {path c : List α} (h : c ∈ path.splitOn sep) : c <:+: path := by
  by_cases hsep : sep ∈ path
  -- the component is the first one, or one of the shorter path behind the separator
  · obtain ⟨l, t, hpath, hl⟩ := List.eq_append_cons_of_mem hsep
    have hlt : t.length < path.length := by simp [hpath]; omega
    rw [hpath, List.splitOn_append_cons_self_of_not_mem hl] at h
    rcases List.mem_cons.mp h with rfl | h
    · exact ⟨[], sep :: t, by simp [hpath]⟩
    · rw [hpath]
      exact (infix_of_mem_splitOn h).trans
        ((List.suffix_cons sep t).trans (List.suffix_append l _)).isInfix
  · rw [List.splitOn_eq_singleton hsep, List.mem_singleton] at h
    exact h ▸ List.infix_rfl
termination_by path.length

/-- A path in which `..` does not occur at all has no such component. -/
theorem parent_not_mem_splitOn {path : List α} (h : ¬[dot, dot] <:+: path) :
    [dot, dot] ∉ path.splitOn sep :=
  fun hmem => h (infix_of_mem_splitOn hmem)

omit [DecidableEq α] in
/-- What has no separator in it does not reach across one. -/
theorem infix_append_sep_iff {t : List α} (ht : sep ∉ t) (a b : List α) :
    t <:+: a ++ sep :: b ↔ t <:+: a ∨ t <:+: b := by
  constructor
  · rintro ⟨front, back, h⟩
    rcases List.append_eq_append_iff.mp h with ⟨rest, ha, -⟩ | ⟨rest, hfront, hback⟩
    -- `t` ends in front of the separator
    · exact Or.inl ⟨front, rest, ha.symm⟩
    · cases rest with
      | nil => exact Or.inl ⟨front, [], by simpa using hfront⟩
      | cons c rest =>
        obtain ⟨rfl, rfl⟩ := List.cons.inj hback
        rcases List.append_eq_append_iff.mp hfront with ⟨inner, -, hinner⟩ | ⟨inner, -, hinner⟩
        -- `t` would have the separator in it
        · exact absurd (hinner ▸ by simp) ht
        · cases inner with
          | nil =>
            have hcons : t = sep :: rest := hinner.symm
            exact absurd (hcons ▸ List.mem_cons_self) ht
          | cons d inner =>
            obtain ⟨-, rfl⟩ := List.cons.inj hinner
            exact Or.inr ⟨inner, back, rfl⟩
  · rintro (h | h)
    · exact h.trans (List.prefix_append a _).isInfix
    · exact h.trans ((List.suffix_cons sep b).trans (List.suffix_append a _)).isInfix

omit [DecidableEq α] in
/-- What has no separator in it stands in joined components only within one of them. -/
theorem infix_intercalate_iff {t : List α} (ht : sep ∉ t) (hne : t ≠ [])
    (components : List (List α)) :
    t <:+: [sep].intercalate components ↔ ∃ c ∈ components, t <:+: c := by
  induction components with
  | nil => simp [hne]
  | cons c components ih =>
    cases components with
    | nil => simp
    | cons d components =>
      rw [List.intercalate_cons_cons, List.append_assoc, List.singleton_append,
        infix_append_sep_iff ht, ih]
      simp

/-! ## Runs of separators -/

variable (sep) in
/-- Each run of separators as one separator. -/
def squeeze : List α → List α
  | [] => []
  | a :: s => if a = sep ∧ s.head? = some sep then squeeze s else a :: squeeze s

theorem squeeze_cons_of_ne {a : α} (h : a ≠ sep) (s : List α) :
    squeeze sep (a :: s) = a :: squeeze sep s := by
  rw [squeeze, if_neg fun hsep => h hsep.1]

@[simp] theorem squeeze_sep_sep (s : List α) :
    squeeze sep (sep :: sep :: s) = squeeze sep (sep :: s) := by
  rw [squeeze, if_pos ⟨rfl, rfl⟩]

/-- A run of separators counts as one. -/
theorem squeeze_run_append {run : List α} (hne : run ≠ []) (hrun : ∀ a ∈ run, a = sep)
    (s : List α) : squeeze sep (run ++ s) = squeeze sep (sep :: s) := by
  induction run with
  | nil => exact absurd rfl hne
  | cons a run ih =>
    obtain ⟨rfl, hrest⟩ := List.forall_mem_cons.mp hrun
    cases run with
    | nil => rfl
    | cons b run =>
      obtain rfl := hrest b List.mem_cons_self
      rw [List.cons_append, List.cons_append, squeeze_sep_sep, ← List.cons_append,
        ih (List.cons_ne_nil _ _) hrest]

/-- A separator behind another one makes no difference. -/
theorem squeeze_append_sep_sep (a s : List α) :
    squeeze sep (a ++ sep :: sep :: s) = squeeze sep (a ++ sep :: s) := by
  induction a with
  | nil => exact squeeze_sep_sep s
  | cons c a ih =>
    have hhead : (a ++ sep :: sep :: s).head? = (a ++ sep :: s).head? := by
      cases a <;> rfl
    rw [List.cons_append, List.cons_append, squeeze, squeeze, hhead, ih]

theorem head?_squeeze (s : List α) : (squeeze sep s).head? = s.head? := by
  induction s with
  | nil => rfl
  | cons a s ih =>
    rw [squeeze]
    split
    · rename_i h
      rw [ih, h.2, h.1]
      rfl
    · rfl

/-- Only separators are left out. -/
theorem filter_squeeze (s : List α) :
    (squeeze sep s).filter (· ≠ sep) = s.filter (· ≠ sep) := by
  induction s with
  | nil => rfl
  | cons a s ih =>
    rw [squeeze]
    split
    · rename_i h
      rw [ih, h.1, List.filter_cons_of_neg (by simp)]
    · rw [List.filter_cons, List.filter_cons, ih]

/-- Behind a separator there is what follows the run it starts. -/
theorem squeeze_sep_cons (s : List α) :
    squeeze sep (sep :: s) = sep :: squeeze sep (s.dropWhile (· = sep)) := by
  induction s with
  | nil => simp [squeeze]
  | cons a s ih =>
    by_cases ha : a = sep
    · rw [ha, squeeze_sep_sep, ih, List.dropWhile_cons_of_pos (by simp)]
    · rw [List.dropWhile_cons_of_neg (by simpa using ha), squeeze, if_neg (by simpa using ha)]

/-- A path that starts with another character than the separator. -/
theorem cons_prefix_squeeze_iff {a : α} (ha : a ≠ sep) {l s : List α} :
    a :: l <+: squeeze sep s ↔ ∃ rest, s = a :: rest ∧ l <+: squeeze sep rest := by
  cases s with
  | nil => simp [squeeze]
  | cons b s =>
    by_cases hb : b = sep
    · rw [hb, squeeze_sep_cons, List.cons_prefix_cons]
      constructor
      · rintro ⟨h, -⟩
        exact absurd h ha
      · rintro ⟨rest, h, -⟩
        exact absurd (List.cons.inj h).1.symm ha
    · rw [squeeze_cons_of_ne hb, List.cons_prefix_cons]
      constructor
      · rintro ⟨rfl, h⟩
        exact ⟨s, rfl, h⟩
      · rintro ⟨rest, heq, h⟩
        obtain ⟨rfl, rfl⟩ := List.cons.inj heq
        exact ⟨rfl, h⟩

/-- What does not start with a separator stands behind those at the start. -/
theorem prefix_squeeze_dropWhile {l s : List α} (hl : l.head? ≠ some sep)
    (h : l <+: squeeze sep s) : l <+: squeeze sep (s.dropWhile (· = sep)) := by
  cases s with
  | nil => exact h
  | cons a s =>
    by_cases ha : a = sep
    · rw [ha, squeeze_sep_cons] at h
      cases l with
      | nil => exact List.nil_prefix
      | cons b l => exact absurd (congrArg some (List.cons_prefix_cons.mp h).1) hl
    · rwa [List.dropWhile_cons_of_neg (by simpa using ha)]

/-- A path that starts with a single separator: of the run at the start of the other path any part
but the first separator may be left. -/
theorem sep_cons_prefix_squeeze_iff {l s : List α} (hl : l.head? ≠ some sep) :
    sep :: l <+: squeeze sep s ↔
      ∃ run rest, run ≠ [] ∧ (∀ a ∈ run, a = sep) ∧ s = run ++ rest ∧
        l <+: squeeze sep rest := by
  constructor
  · intro h
    cases s with
    | nil => simp [squeeze] at h
    | cons a s =>
      have ha : a = sep := by
        by_contra hne
        rw [squeeze_cons_of_ne hne, List.cons_prefix_cons] at h
        exact hne h.1.symm
      rw [ha, squeeze_sep_cons, List.cons_prefix_cons] at h
      -- the whole run
      refine ⟨sep :: s.takeWhile (· = sep), s.dropWhile (· = sep), List.cons_ne_nil _ _, ?_, ?_,
        h.2⟩
      · intro b hb
        rcases List.mem_cons.mp hb with hb | hb
        · exact hb
        · simpa using List.mem_takeWhile_imp hb
      · rw [List.cons_append, List.takeWhile_append_dropWhile, ha]
  · rintro ⟨run, rest, hne, hrun, rfl, h⟩
    rw [squeeze_run_append hne hrun, squeeze_sep_cons, List.cons_prefix_cons]
    exact ⟨rfl, prefix_squeeze_dropWhile hl h⟩

end LexPath
