import Mathlib.Data.List.Basic

/-!
# Lines of a stream

`getlines sep s` is what repeated `getline` calls with the delimiter `sep` extract from the stream
`s`: each line without its delimiter, a last line that has none included. A stream that ends with
the delimiter has no further line after it.

- `getlines_append_sep`: a terminated line comes off the front;
- `lines_induction`: induction on a stream, one terminated line at a time;
- `exists_append_of_getlines`: the part of a stream that its first lines take up;
- `mem_of_mem_getlines`, `mem_of_mem_splitOn`: the characters of a line, and of a piece;
- `getlines_append_of_terminated`: what follows a terminated stream adds lines and changes none.
-/

namespace Lines

variable {α : Type} [DecidableEq α] (sep : α)

/-- The lines of a stream, without their delimiters. -/
def getlines : List α → List (List α)
  | [] => []
  | a :: s =>
    if a = sep then [] :: getlines s
    else
      match getlines s with
      | [] => [[a]]
      | l :: ls => (a :: l) :: ls

@[simp] theorem getlines_nil : getlines sep [] = [] := rfl

@[simp] theorem getlines_sep_cons (s : List α) :
    getlines sep (sep :: s) = [] :: getlines sep s := by
  simp [getlines]

theorem getlines_eq_nil_iff {s : List α} : getlines sep s = [] ↔ s = [] := by
  cases s with
  | nil => simp
  | cons a s =>
    simp only [getlines, reduceCtorEq, iff_false]
    split
    · simp
    · split <;> simp

variable {sep}

/-- A terminated line comes off the front of the stream. -/
theorem getlines_append_sep {l : List α} (h : sep ∉ l) (s : List α) :
    getlines sep (l ++ sep :: s) = l :: getlines sep s := by
  induction l with
  | nil => simp
  | cons a l ih =>
    simp only [List.mem_cons, not_or] at h
    simp [getlines, ih h.2, Ne.symm h.1]

/-- Without a delimiter the stream is one line, unless it is empty. -/
theorem getlines_of_sep_not_mem {l : List α} (h : sep ∉ l) (hne : l ≠ []) :
    getlines sep l = [l] := by
  induction l with
  | nil => exact absurd rfl hne
  | cons a l ih =>
    simp only [List.mem_cons, not_or] at h
    rcases eq_or_ne l [] with rfl | hl
    · simp [getlines, Ne.symm h.1]
    · simp [getlines, ih h.2 hl, Ne.symm h.1]

variable (sep)

/-- Induction on the lines of a stream: it is empty, or one unterminated line, or a line with its
delimiter before a stream for which the property is known. -/
theorem lines_induction {motive : List α → Prop} (nil : motive [])
    (unterminated : ∀ l, sep ∉ l → l ≠ [] → motive l)
    (terminated : ∀ l s, sep ∉ l → motive s → motive (l ++ sep :: s)) (s : List α) :
    motive s := by
  -- split at the first delimiter; what follows it is shorter
  by_cases h : sep ∈ s
  · obtain ⟨l, t, hs, hl⟩ := List.eq_append_cons_of_mem h
    have hlt : t.length < s.length := by simp [hs]; omega
    exact hs ▸ terminated l t hl (lines_induction nil unterminated terminated t)
  · rcases eq_or_ne s [] with rfl | hne
    · exact nil
    · exact unterminated s h hne
termination_by s.length

/-- The lines of a terminated stream stay what they are, whatever follows it. -/
theorem getlines_append_of_terminated (s t : List α) :
    getlines sep (s ++ sep :: t) = getlines sep (s ++ [sep]) ++ getlines sep t := by
  induction s using lines_induction sep with
  | nil => simp
  | unterminated l hl _ => simp [getlines_append_sep hl]
  | terminated l s hl ih =>
    simp only [List.append_assoc, List.cons_append, getlines_append_sep hl, ih]

variable {sep}

/-- The first lines of a stream are those of a part at its start, which ends with the delimiter or
is the whole stream. -/
theorem exists_append_of_getlines {s : List α} {first rest : List (List α)} (hne : first ≠ [])
    (h : getlines sep s = first ++ rest) :
    ∃ head after, s = head ++ after ∧ getlines sep head = first ∧ getlines sep after = rest ∧
      (head.getLast? = some sep ∨ after = []) := by
  obtain ⟨line, first, rfl⟩ := List.exists_cons_of_ne_nil hne
  induction s using lines_induction sep generalizing line first with
  | nil => simp at h
  | unterminated l hl hnil =>
    rw [getlines_of_sep_not_mem hl hnil, List.cons_append, List.cons.injEq] at h
    obtain ⟨hfirst, hrest⟩ := List.append_eq_nil_iff.mp h.2.symm
    refine ⟨l, [], (List.append_nil l).symm, ?_, hrest.symm, Or.inr rfl⟩
    rw [getlines_of_sep_not_mem hl hnil, h.1, hfirst]
  | terminated l s hl ih =>
    rw [getlines_append_sep hl, List.cons_append, List.cons.injEq] at h
    cases first with
    | nil =>
      refine ⟨l ++ [sep], s, by simp, ?_, h.2, Or.inl (by simp)⟩
      rw [getlines_append_sep hl, h.1, getlines_nil]
    | cons next first =>
      obtain ⟨head, after, rfl, hhead, hafter, hend⟩ := ih next first (List.cons_ne_nil _ _) h.2
      refine ⟨l ++ sep :: head, after, by simp, ?_, hafter, ?_⟩
      · rw [getlines_append_sep hl, hhead, h.1]
      · refine hend.imp_left fun hlast => ?_
        rw [List.getLast?_append, List.getLast?_cons, hlast]
        rfl

/-- Where a stream is taken apart at its delimiters, the parts consist of its other characters. -/
theorem mem_of_mem_parts {parts : List α → List (List α)} (nil : ∀ l ∈ parts [], l = [])
    (unterminated : ∀ l, sep ∉ l → l ≠ [] → parts l = [l])
    (terminated : ∀ l s, sep ∉ l → parts (l ++ sep :: s) = l :: parts s) {s l : List α}
    (h : l ∈ parts s) {a : α} (ha : a ∈ l) : a ∈ s ∧ a ≠ sep := by
  induction s using lines_induction sep with
  | nil => simp [nil l h] at ha
  | unterminated line hline hne =>
    rw [unterminated line hline hne, List.mem_singleton] at h
    subst h
    exact ⟨ha, ne_of_mem_of_not_mem ha hline⟩
  | terminated line s hline ih =>
    rw [terminated line s hline, List.mem_cons] at h
    rcases h with rfl | h
    · exact ⟨List.mem_append_left _ ha, ne_of_mem_of_not_mem ha hline⟩
    · exact ⟨List.mem_append_right _ (List.mem_cons_of_mem _ (ih h).1), (ih h).2⟩

theorem mem_of_mem_getlines {s l : List α} (h : l ∈ getlines sep s) {a : α} (ha : a ∈ l) :
    a ∈ s ∧ a ≠ sep :=
  mem_of_mem_parts (by simp) (fun _ => getlines_of_sep_not_mem)
    (fun _ s hl => getlines_append_sep hl s) h ha

theorem mem_of_mem_splitOn {s piece : List α} (h : piece ∈ s.splitOn sep) {a : α}
    (ha : a ∈ piece) : a ∈ s ∧ a ≠ sep :=
  mem_of_mem_parts (by simp) (fun _ hl _ => List.splitOn_eq_singleton hl)
    (fun _ s hl => List.splitOn_append_cons_self_of_not_mem hl s) h ha

end Lines
