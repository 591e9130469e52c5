import LhsServer.Library.Bytes
import Mathlib.Data.List.Infix

/-!
# Regular expressions

Searching a text for a pattern. The patterns are sequences of characters with `?`, `*` and `+` and
of groups that capture what they match; a pattern can be tied to the start of the text. Repetitions
are greedy: of several matches the one is taken that repeats earlier elements more often.

- `Accepts`: the text starts with a match;
- `search`, `search_isSome_iff`: the groups of the match that is found, if there is one;
- `head?_results_chars_iff`: which match is taken of those at the start of a text;
- `parse`: the pattern that a text denotes, with `^`, `.`, escapes, groups and repetitions of single
  characters; texts with anything else in them denote none;
- `Spells`, `quote`: the spellings of one character, alone or behind a backslash;
- `parse_spelled`: the pattern of a text that is written character by character.
-/

/-- How often a character stands: once, or as `?`, `*` and `+` say. -/
inductive Regex.Quantifier where
  | one
  | opt
  | star
  | plus
  deriving DecidableEq, Repr

/-- The numbers of repetitions a quantifier admits. -/
def Regex.Quantifier.admits : Regex.Quantifier → ℕ → Bool
  | .one, n => n == 1
  | .opt, n => n ≤ 1
  | .star, _ => true
  | .plus, n => 0 < n

/-- An element of a pattern: repeated characters of one kind, or a parenthesis. -/
inductive Regex.Node (α : Type) where
  | chars (p : α → Bool) (q : Regex.Quantifier)
  | openGroup
  | closeGroup

/-- A pattern, at the start of the text if it is anchored and anywhere in it otherwise. -/
structure Regex (α : Type) where
  anchored : Bool
  nodes : List (Regex.Node α)

namespace Regex

variable {α : Type}

/-! ## Matches -/

/-- The texts that an element matches. -/
def Node.Accepts : Node α → List α → Prop
  | .chars p q, w => q.admits w.length ∧ ∀ a ∈ w, p a
  | .openGroup, w => w = []
  | .closeGroup, w => w = []

/-- The text starts with a match of the elements, one after the other. -/
def Accepts : List (Node α) → List α → Prop
  | [], _ => True
  | n :: ns, s => ∃ w rest, s = w ++ rest ∧ n.Accepts w ∧ Accepts ns rest

/-- The text has a match. -/
def Occurs (r : Regex α) (s : List α) : Prop :=
  if r.anchored then Accepts r.nodes s else ∃ t, t <:+ s ∧ Accepts r.nodes t

@[simp] theorem accepts_nil (s : List α) : Accepts [] s := trivial

/-- The nodes of a pattern accept the pieces of a text one after the other. -/
theorem accepts_cons {n : Node α} {ns : List (Node α)} {s : List α} :
    Accepts (n :: ns) s ↔ ∃ w rest, s = w ++ rest ∧ n.Accepts w ∧ Accepts ns rest := Iff.rfl

/-- One character of a kind. -/
theorem accepts_one {p : α → Bool} {ns : List (Node α)} {s : List α} :
    Accepts (.chars p .one :: ns) s ↔ ∃ a rest, s = a :: rest ∧ p a ∧ Accepts ns rest := by
  rw [accepts_cons]
  constructor
  · rintro ⟨w, rest, rfl, ⟨hlength, hw⟩, hrest⟩
    obtain ⟨a, rfl⟩ := List.length_eq_one_iff.mp (beq_iff_eq.mp hlength)
    exact ⟨a, rest, rfl, hw a List.mem_cons_self, hrest⟩
  · rintro ⟨a, rest, rfl, ha, hrest⟩
    exact ⟨[a], rest, rfl, ⟨rfl, by simpa using ha⟩, hrest⟩

/-- One or more characters of a kind. -/
theorem accepts_plus {p : α → Bool} {ns : List (Node α)} {s : List α} :
    Accepts (.chars p .plus :: ns) s ↔
      ∃ w rest, w ≠ [] ∧ (∀ a ∈ w, p a) ∧ s = w ++ rest ∧ Accepts ns rest := by
  rw [accepts_cons]
  constructor
  · rintro ⟨w, rest, hs, ⟨hlength, hw⟩, hrest⟩
    exact ⟨w, rest, List.length_pos_iff.mp (of_decide_eq_true hlength), hw, hs, hrest⟩
  · rintro ⟨w, rest, hne, hw, hs, hrest⟩
    exact ⟨w, rest, hs, ⟨decide_eq_true (List.length_pos_iff.mpr hne), hw⟩, hrest⟩

/-- A parenthesis matches without taking anything from the text. -/
theorem accepts_paren {n : Node α} (hn : ∀ w, n.Accepts w ↔ w = []) {ns : List (Node α)}
    {s : List α} : Accepts (n :: ns) s ↔ Accepts ns s := by
  rw [accepts_cons]
  constructor
  · rintro ⟨w, rest, rfl, hw, hrest⟩
    rw [hn] at hw
    rwa [hw]
  · intro h
    exact ⟨[], s, rfl, (hn []).mpr rfl, h⟩

/-- A group of any text matches everywhere. -/
theorem accepts_anyGroup (p : α → Bool) (s : List α) :
    Accepts [.openGroup, .chars p .star, .closeGroup] s :=
  ⟨[], s, rfl, rfl, [], s, rfl, ⟨rfl, List.forall_mem_nil _⟩, [], s, rfl, rfl, trivial⟩

/-- What the last elements of a pattern match stands in the text. -/
theorem exists_suffix_of_accepts_append {ns ms : List (Node α)} {s : List α}
    (h : Accepts (ns ++ ms) s) : ∃ t, t <:+ s ∧ Accepts ms t := by
  induction ns generalizing s with
  | nil => exact ⟨s, List.suffix_rfl, h⟩
  | cons n ns ih =>
    obtain ⟨w, rest, rfl, -, hrest⟩ := accepts_cons.mp h
    obtain ⟨t, ht, hms⟩ := ih hrest
    exact ⟨t, ht.trans (List.suffix_append w rest), hms⟩

/-! ## Search -/

/-- The ways to split the text behind characters of one kind, the longest first. -/
def takes (p : α → Bool) : List α → List (List α × List α)
  | [] => [([], [])]
  | a :: s =>
    if p a then (takes p s).map (fun split => (a :: split.1, split.2)) ++ [([], a :: s)]
    else [([], a :: s)]

/-- The ways to split the text behind an admitted number of them, the preferred one first. -/
def splits (p : α → Bool) (q : Quantifier) (s : List α) : List (List α × List α) :=
  (takes p s).filter fun split => q.admits split.1.length

/-- The groups of the matches at the start of the text, those of the preferred match first. A group
that has been opened collects what is matched until it is closed. -/
def results : List (Node α) → Option (List α) → List α → List (List (List α))
  | [], _, _ => [[]]
  | .openGroup :: ns, _, s => results ns (some []) s
  | .closeGroup :: ns, group, s => (results ns none s).map (group.getD [] :: ·)
  | .chars p q :: ns, group, s =>
    (splits p q s).flatMap fun split => results ns (group.map (· ++ split.1)) split.2

/-- The groups of the first match. -/
def search (r : Regex α) (s : List α) : Option (List (List α)) :=
  if r.anchored then (results r.nodes none s).head?
  else s.tails.findSome? fun t => (results r.nodes none t).head?

/-- The ways to take characters of a kind from the front. -/
theorem mem_takes {p : α → Bool} {s w rest : List α} :
    (w, rest) ∈ takes p s ↔ s = w ++ rest ∧ ∀ a ∈ w, p a := by
  induction s generalizing w with
  | nil =>
    simp only [takes, List.mem_singleton, Prod.mk.injEq]
    constructor
    · rintro ⟨rfl, rfl⟩
      exact ⟨rfl, List.forall_mem_nil _⟩
    · rintro ⟨h, -⟩
      exact List.append_eq_nil_iff.mp h.symm
  | cons a s ih =>
    cases w with
    -- the empty part comes last, and after a character of another kind it is all there is
    | nil =>
      rw [takes]
      split
      · simpa using eq_comm
      · simpa using eq_comm
    | cons b w =>
      rw [takes]
      split
      · simp [ih]
        grind
      · simp
        grind

/-- The ways to split a text in front of the rest of the pattern. -/
theorem mem_splits {p : α → Bool} {q : Quantifier} {s w rest : List α} :
    (w, rest) ∈ splits p q s ↔ s = w ++ rest ∧ (Node.chars p q).Accepts w := by
  rw [splits, List.mem_filter, mem_takes, Node.Accepts, and_assoc]
  exact and_congr_right fun _ => and_comm

/-- The search at the start of a text finds a match exactly where there is one. -/
theorem results_ne_nil_iff {ns : List (Node α)} {group : Option (List α)} {s : List α} :
    results ns group s ≠ [] ↔ Accepts ns s := by
  induction ns generalizing group s with
  | nil => simp [results]
  | cons n ns ih =>
    cases n with
    | chars p q =>
      rw [results, Ne, List.flatMap_eq_nil_iff, not_forall, accepts_cons]
      constructor
      · rintro ⟨⟨w, rest⟩, h⟩
        rw [Classical.not_imp, mem_splits] at h
        exact ⟨w, rest, h.1.1, h.1.2, ih.mp h.2⟩
      · rintro ⟨w, rest, hs, hw, hrest⟩
        exact ⟨(w, rest), fun h => ih.mpr hrest (h (mem_splits.mpr ⟨hs, hw⟩))⟩
    | openGroup =>
      rw [results, ih, accepts_paren fun _ => Iff.rfl]
    | closeGroup =>
      rw [results, Ne, List.map_eq_nil_iff, ← Ne, ih, accepts_paren fun _ => Iff.rfl]

/-- The search finds a match exactly where the text has one. -/
theorem search_isSome_iff {r : Regex α} {s : List α} : (r.search s).isSome ↔ r.Occurs s := by
  have hstart : ∀ t, ((results r.nodes none t).head?).isSome ↔ Accepts r.nodes t := fun t => by
    rw [List.isSome_head?, results_ne_nil_iff]
  rw [search, Occurs]
  split
  · exact hstart s
  · rw [List.findSome?_isSome_iff]
    simp only [List.mem_tails, hstart]

/-! ## The preferred match -/

/-- The ways to split a text stand in the order of preference. -/
theorem pairwise_takes (p : α → Bool) (s : List α) :
    (takes p s).Pairwise fun a b => b.1.length < a.1.length := by
  induction s with
  | nil => simp [takes]
  | cons a s ih =>
    rw [takes]
    split
    · rw [List.pairwise_append, List.pairwise_map]
      refine ⟨ih.imp fun h => Nat.succ_lt_succ h, List.pairwise_singleton _ _, ?_⟩
      rintro x hx y hy
      obtain ⟨split, -, rfl⟩ := List.mem_map.mp hx
      rw [List.mem_singleton.mp hy]
      exact Nat.succ_pos _
    · exact List.pairwise_singleton _ _

/-- The first match of a pattern that begins with repeated characters takes as many of them as what
follows in the pattern admits. -/
theorem head?_results_chars_iff {p : α → Bool} {q : Quantifier} {ns : List (Node α)}
    {group : Option (List α)} {s : List α} {gs : List (List α)} :
    (results (.chars p q :: ns) group s).head? = some gs ↔
      ∃ w rest, s = w ++ rest ∧ (Node.chars p q).Accepts w ∧
        (results ns (group.map (· ++ w)) rest).head? = some gs ∧
        ∀ w' rest', s = w' ++ rest' → (Node.chars p q).Accepts w' → w.length < w'.length →
          ¬Accepts ns rest' := by
  have hpairwise : (splits p q s).Pairwise fun a b => b.1.length < a.1.length :=
    (pairwise_takes p s).filter _
  rw [results, List.head?_flatMap, List.findSome?_eq_some_iff]
  constructor
  · rintro ⟨front, ⟨w, rest⟩, back, hsplits, hhead, hfront⟩
    have hmem : (w, rest) ∈ splits p q s := by simp [hsplits]
    obtain ⟨hs, hw⟩ := mem_splits.mp hmem
    refine ⟨w, rest, hs, hw, hhead, fun w' rest' hs' hw' hlt hrest' => ?_⟩
    have hmem' : (w', rest') ∈ splits p q s := mem_splits.mpr ⟨hs', hw'⟩
    rw [hsplits] at hmem' hpairwise
    rw [List.pairwise_append, List.pairwise_cons] at hpairwise
    rcases List.mem_append.mp hmem' with h | h
    -- a longer part stands in front, and has been tried
    · exact results_ne_nil_iff.mpr hrest' (List.head?_eq_none_iff.mp (hfront _ h))
    · rcases List.mem_cons.mp h with h | h
      · rw [(Prod.mk.inj h).1] at hlt
        exact Nat.lt_irrefl _ hlt
      · exact Nat.lt_asymm hlt (hpairwise.2.1.1 _ h)
  · rintro ⟨w, rest, hs, hw, hhead, hlonger⟩
    obtain ⟨front, back, hsplits⟩ := List.append_of_mem (mem_splits.mpr ⟨hs, hw⟩)
    refine ⟨front, (w, rest), back, hsplits, hhead, ?_⟩
    rintro ⟨w', rest'⟩ hmem'
    obtain ⟨hs', hw'⟩ := mem_splits.mp (hsplits ▸ List.mem_append_left _ hmem')
    rw [hsplits, List.pairwise_append] at hpairwise
    have hlt : w.length < w'.length := hpairwise.2.2 _ hmem' _ List.mem_cons_self
    have hnot := hlonger w' rest' hs' hw' hlt
    rw [← results_ne_nil_iff, not_not] at hnot
    exact List.head?_eq_none_iff.mpr hnot

/-- The first result for a pattern that begins with one character of a kind. -/
theorem head?_results_one_iff {p : α → Bool} {ns : List (Node α)} {group : Option (List α)}
    {s : List α} {gs : List (List α)} :
    (results (.chars p .one :: ns) group s).head? = some gs ↔
      ∃ a rest, s = a :: rest ∧ p a ∧
        (results ns (group.map (· ++ [a])) rest).head? = some gs := by
  rw [head?_results_chars_iff]
  constructor
  · rintro ⟨w, rest, rfl, ⟨hlength, hw⟩, hhead, -⟩
    obtain ⟨a, rfl⟩ := List.length_eq_one_iff.mp (beq_iff_eq.mp hlength)
    exact ⟨a, rest, rfl, hw a List.mem_cons_self, hhead⟩
  · rintro ⟨a, rest, rfl, ha, hhead⟩
    refine ⟨[a], rest, rfl, ⟨rfl, by simpa using ha⟩, hhead, fun w' _ _ hw' hlt => ?_⟩
    -- no match has more than one character
    rw [beq_iff_eq.mp hw'.1] at hlt
    exact absurd hlt (Nat.lt_irrefl 1)

/-- A character that may be missing in front of another one. -/
theorem head?_results_opt_iff {p p' : α → Bool} (hne : ∀ a, p a → ¬p' a) {ns : List (Node α)}
    {s : List α} {gs : List (List α)} :
    (results (.chars p .opt :: .chars p' .one :: ns) none s).head? = some gs ↔
      ∃ w rest, s = w ++ rest ∧ w.length ≤ 1 ∧ (∀ a ∈ w, p a) ∧
        (results (.chars p' .one :: ns) none rest).head? = some gs := by
  rw [head?_results_chars_iff]
  constructor
  · rintro ⟨w, rest, hs, ⟨hlength, hw⟩, hhead, -⟩
    exact ⟨w, rest, hs, of_decide_eq_true hlength, hw, hhead⟩
  · rintro ⟨w, rest, rfl, hlength, hw, hhead⟩
    refine ⟨w, rest, rfl, ⟨decide_eq_true hlength, hw⟩, hhead, ?_⟩
    rintro w' rest' hs ⟨hlength', hw'⟩ hlt -
    have hlength' : w'.length ≤ 1 := of_decide_eq_true hlength'
    -- the second character would be the first one too
    obtain rfl : w = [] := List.length_eq_zero_iff.mp (by omega)
    obtain ⟨a, rfl⟩ := List.length_eq_one_iff.mp (show w'.length = 1 by omega)
    obtain ⟨b, t, hrest, hb, -⟩ := head?_results_one_iff.mp hhead
    rw [List.nil_append, hrest, List.singleton_append, List.cons.injEq] at hs
    exact hne a (hw' a List.mem_cons_self) (hs.1 ▸ hb)

/-- The end of a group adds what the group has taken. -/
theorem head?_results_closeGroup_iff {ns : List (Node α)} {group s : List α}
    {gs : List (List α)} :
    (results (.closeGroup :: ns) (some group) s).head? = some gs ↔
      ∃ gs', (results ns none s).head? = some gs' ∧ group :: gs' = gs := by
  rw [results, List.head?_map, Option.map_eq_some_iff]
  rfl

/-- A last group of repeated characters takes all of them. -/
theorem head?_results_lastGroup {p : α → Bool} {group s : List α} :
    (results [.chars p .star, .closeGroup] (some group) s).head? =
      some [group ++ s.takeWhile p] := by
  refine head?_results_chars_iff.mpr ⟨s.takeWhile p, s.dropWhile p,
    (List.takeWhile_append_dropWhile).symm, ⟨rfl, fun _ => List.mem_takeWhile_imp⟩, rfl, ?_⟩
  rintro w' rest' hs' ⟨-, hw'⟩ hlt
  have htake : w'.length ≤ (s.takeWhile p).length := by
    rw [hs', List.takeWhile_append_of_pos hw', List.length_append]
    exact Nat.le_add_right _ _
  omega

/-- The groups of a match at the start of the text are what a search finds. -/
theorem search_eq_some_of_head? {r : Regex α} {s : List α} {gs : List (List α)}
    (h : (results r.nodes none s).head? = some gs) : r.search s = some gs := by
  rw [search]
  split
  · exact h
  · cases s with
    | nil => simp [h]
    | cons a s => simp [h]

/-- What a search finds is the first match at some place of the text. -/
theorem exists_suffix_of_search {r : Regex α} {s : List α} {gs : List (List α)}
    (h : r.search s = some gs) : ∃ t, t <:+ s ∧ (results r.nodes none t).head? = some gs := by
  rw [search] at h
  split at h
  · exact ⟨s, List.suffix_rfl, h⟩
  · obtain ⟨t, ht, hhead⟩ := List.exists_of_findSome?_eq_some h
    exact ⟨t, (List.mem_tails _ _).mp ht, hhead⟩

/-! ## Patterns as texts -/

section Syntax

open Bytes

/-- The characters that do not stand for themselves in a pattern. -/
def metacharacters : Bytes := str "\\^$.|?*+()[]\x7b\x7d"

/-- The character behind a backslash is a letter or a digit, which may give it a meaning. -/
def isAlnum (c : UInt8) : Bool :=
  (48 ≤ c && c ≤ 57) || (65 ≤ c && c ≤ 90) || (97 ≤ c && c ≤ 122)

/-- The control characters that are written as a letter behind a backslash. -/
def control (c : UInt8) : Option UInt8 :=
  if c = 110 then some 10
  else if c = 116 then some 9
  else if c = 114 then some 13
  else if c = 102 then some 12
  else if c = 118 then some 11
  else none

/-- The text stands for one character. -/
inductive Spells : Bytes → UInt8 → Prop where
  | bare {c : UInt8} (h : c ∉ metacharacters) : Spells [c] c
  | escaped {c : UInt8} (h : isAlnum c = false) : Spells [92, c] c
  | control {e c : UInt8} (halnum : isAlnum e) (h : Regex.control e = some c) : Spells [92, e] c

/-- The parts of a pattern as it is written. -/
inductive Token where
  | char (p : UInt8 → Bool)
  | quantifier (q : Quantifier)
  | openGroup
  | closeGroup

/-- The part that stands for one character. -/
def Token.literal (c : UInt8) : Token := .char (· == c)

variable (any : UInt8 → Bool)

/-- A character on its own; `any` are the characters that `.` matches. -/
def bare (c : UInt8) : Option Token :=
  if c = 46 then some (.char any)
  else if c = 63 then some (.quantifier .opt)
  else if c = 42 then some (.quantifier .star)
  else if c = 43 then some (.quantifier .plus)
  else if c = 40 then some .openGroup
  else if c = 41 then some .closeGroup
  else if c ∈ metacharacters then none
  else some (.literal c)

/-- A character behind a backslash. -/
def escaped (c : UInt8) : Option Token :=
  if isAlnum c then (control c).map .literal else some (.literal c)

/-- Read a pattern part by part. -/
def lex : Bytes → Option (List Token)
  | [] => some []
  | 92 :: c :: s => (escaped c).bind fun t => (lex s).map (t :: ·)
  | c :: s => (bare any c).bind fun t => (lex s).map (t :: ·)

/-- Put the parts of a pattern together, inside a group or outside: a quantifier belongs to the
character in front of it, and groups are not nested. -/
def assemble : Bool → List Token → Option (List (Node UInt8))
  | inGroup, [] => if inGroup then none else some []
  | inGroup, .char p :: .quantifier q :: ts => (assemble inGroup ts).map (.chars p q :: ·)
  | inGroup, .char p :: ts => (assemble inGroup ts).map (.chars p .one :: ·)
  | inGroup, .openGroup :: ts =>
    if inGroup then none else (assemble true ts).map (.openGroup :: ·)
  | inGroup, .closeGroup :: ts =>
    if inGroup then (assemble false ts).map (.closeGroup :: ·) else none
  | _, .quantifier _ :: _ => none

/-- The pattern that a text denotes. -/
def parse : Bytes → Option (Regex UInt8)
  | 94 :: s => ((lex any s).bind (assemble false)).map fun nodes => { anchored := true, nodes }
  | s => ((lex any s).bind (assemble false)).map fun nodes => { anchored := false, nodes }

/-- A quantifier as it is written. -/
def Quantifier.mark : Quantifier → Bytes
  | .one => []
  | .opt => [63]
  | .star => [42]
  | .plus => [43]

/-- The parts of a pattern in a quantifier. -/
def Quantifier.tokens : Quantifier → List Token
  | .one => []
  | .opt => [.quantifier .opt]
  | .star => [.quantifier .star]
  | .plus => [.quantifier .plus]

/-- The characters with a meaning of their own stand behind a backslash. -/
def quoteChar (c : UInt8) : Bytes := if c ∈ metacharacters then [92, c] else [c]

/-- A pattern for one text. -/
def quote (s : Bytes) : Bytes := s.flatMap quoteChar

/-- No metacharacter is a letter or a digit. -/
theorem isAlnum_of_mem_metacharacters {c : UInt8} (h : c ∈ metacharacters) :
    isAlnum c = false := by
  have hall : ∀ d ∈ metacharacters, isAlnum d = false := by decide +kernel
  exact hall c h

theorem lt_of_control {e c : UInt8} (h : control e = some c) : c < 32 := by
  unfold control at h
  split_ifs at h <;> cases h <;> decide

/-- A quoted character is read as itself. -/
theorem quoteChar_spells (c : UInt8) : Spells (quoteChar c) c := by
  rw [quoteChar]
  split
  · rename_i h
    exact Spells.escaped (isAlnum_of_mem_metacharacters h)
  · rename_i h
    exact Spells.bare h

variable {any}

/-- A character that is no backslash is a token of its own. -/
theorem lex_cons {c : UInt8} (hc : c ≠ 92) (s : Bytes) :
    lex any (c :: s) = (bare any c).bind fun t => (lex any s).map (t :: ·) := by
  rw [lex]
  rintro _ _ rfl
  exact absurd rfl hc

/-- Outside the metacharacters a character stands for itself. -/
theorem bare_of_not_mem {c : UInt8} (h : c ∉ metacharacters) :
    bare any c = some (.literal c) := by
  have hne : ∀ d ∈ metacharacters, c ≠ d := by
    rintro d hd rfl
    exact h hd
  rw [bare, if_neg (hne 46 (by decide)), if_neg (hne 63 (by decide)), if_neg (hne 42 (by decide)),
    if_neg (hne 43 (by decide)), if_neg (hne 40 (by decide)), if_neg (hne 41 (by decide)), if_neg h]

/-- A spelling of a character is read as that character. -/
theorem lex_append_of_spells {t : Bytes} {c : UInt8} (h : Spells t c) (s : Bytes) :
    lex any (t ++ s) = (lex any s).map (.literal c :: ·) := by
  cases h with
  | bare h =>
    have hc : c ≠ 92 := by
      rintro rfl
      exact h (by decide)
    rw [List.singleton_append, lex_cons hc, bare_of_not_mem h]
    rfl
  | escaped h =>
    rw [List.cons_append, List.singleton_append, lex, escaped, if_neg (by simp [h])]
    rfl
  | control halnum h =>
    rw [List.cons_append, List.singleton_append, lex, escaped, if_pos halnum, h]
    rfl

/-- The mark of a quantifier in front of a pattern. -/
theorem lex_mark_append (q : Quantifier) (s : Bytes) :
    lex any (q.mark ++ s) = (lex any s).map (q.tokens ++ ·) := by
  cases q with
  | one => simp [Quantifier.mark, Quantifier.tokens]
  | opt =>
    rw [Quantifier.mark, List.singleton_append, lex_cons (by decide)]
    rfl
  | star =>
    rw [Quantifier.mark, List.singleton_append, lex_cons (by decide)]
    rfl
  | plus =>
    rw [Quantifier.mark, List.singleton_append, lex_cons (by decide)]
    rfl

/-- A character takes the quantifier behind it, and no other. -/
theorem assemble_char {ts : List Token} (hts : ∀ q ts', ts ≠ .quantifier q :: ts')
    (inGroup : Bool) (p : UInt8 → Bool) (q : Quantifier) :
    assemble inGroup (.char p :: (q.tokens ++ ts)) =
      (assemble inGroup ts).map (.chars p q :: ·) := by
  cases q with
  | one =>
    rw [Quantifier.tokens, List.nil_append, assemble]
    exact hts
  | opt => rfl
  | star => rfl
  | plus => rfl

/-! ### Texts written character by character -/

/-- The parts of a text whose characters stand with a quantifier each. -/
def spelledTokens (q : UInt8 → Quantifier) (text : Bytes) : List Token :=
  text.flatMap fun c => .literal c :: (q c).tokens

/-- A spelled text is read back character by character, each with its quantifier. -/
theorem lex_spelled {esc : UInt8 → Bytes} (hesc : ∀ c, Spells (esc c) c) (q : UInt8 → Quantifier)
    (text s : Bytes) :
    lex any ((text.flatMap fun c => esc c ++ (q c).mark) ++ s) =
      (lex any s).map (spelledTokens q text ++ ·) := by
  induction text with
  | nil => simp [spelledTokens]
  | cons c text ih =>
    rw [List.flatMap_cons, List.append_assoc, List.append_assoc, lex_append_of_spells (hesc c),
      lex_mark_append, ih, Option.map_map, Option.map_map]
    simp [spelledTokens, Function.comp_def]

/-- Such tokens become one node for each character. -/
theorem assemble_spelledTokens {ts : List Token} (hts : ∀ q ts', ts ≠ .quantifier q :: ts')
    (inGroup : Bool) (q : UInt8 → Quantifier) (text : Bytes) :
    assemble inGroup (spelledTokens q text ++ ts) =
      (assemble inGroup ts).map ((text.map fun c => .chars (· == c) (q c)) ++ ·) := by
  induction text with
  | nil => simp [spelledTokens]
  | cons c text ih =>
    have hnext : ∀ q' ts', spelledTokens q text ++ ts ≠ .quantifier q' :: ts' := by
      cases text with
      | nil => exact hts
      | cons d text => simp [spelledTokens, Token.literal]
    calc assemble inGroup (spelledTokens q (c :: text) ++ ts)
        = assemble inGroup (.char (· == c) :: ((q c).tokens ++ (spelledTokens q text ++ ts))) := by
          simp [spelledTokens, Token.literal]
      _ = _ := by
          rw [assemble_char hnext, ih, Option.map_map]
          rfl

/-- A text at the start, written character by character, and anything behind it. -/
theorem parse_spelled {esc : UInt8 → Bytes} (hesc : ∀ c, Spells (esc c) c)
    (q : UInt8 → Quantifier) (text : Bytes) :
    parse any (str "^" ++ (text.flatMap fun c => esc c ++ (q c).mark) ++ str "(.*)") =
      some
        { anchored := true
          nodes := (text.map fun c => .chars (· == c) (q c)) ++
            [.openGroup, .chars any .star, .closeGroup] } := by
  have htail : lex any (str "(.*)") =
      some [.openGroup, .char any, .quantifier .star, .closeGroup] := rfl
  have hpattern : str "^" ++ (text.flatMap fun c => esc c ++ (q c).mark) ++ str "(.*)" =
      94 :: ((text.flatMap fun c => esc c ++ (q c).mark) ++ str "(.*)") := rfl
  rw [hpattern, parse, lex_spelled hesc, htail, Option.map_some, Option.bind_some,
    assemble_spelledTokens (by simp)]
  rfl

end Syntax

end Regex
