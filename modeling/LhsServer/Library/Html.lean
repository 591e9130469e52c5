import LhsServer.Library.Bytes
import Mathlib.Data.List.Chain

/-!
# HTML

How an HTML document is divided into tags and the text between them, byte by byte. What a byte is
depends on the bytes behind it: a `<` begins something only in front of a letter, `/`, `!` or `?`,
and the text of a title ends only at its end tag. The functions therefore read a string in front of
what follows it.

A document that is made from a template is a list of pieces, some of them fixed and some inserted.

- `step`, `tags`, `roles`: the tags of a string, and what each of its bytes is;
- `Harmless`: the inserted pieces are nothing but text, or lie inside of an attribute value;
- `quiet_data_iff`, `quiet_attributeValue_iff`: the strings that have no markup in them;
- `Reads`: the tags of a fixed piece, whatever follows it;
- `Yields`: the tags of a template, and when what is inserted in it is harmless;
- `Yields.sameMarkup_iff`: when two documents have the same markup.
-/

namespace Html

open Bytes

def lt : UInt8 := 60

def gt : UInt8 := 62

def exclamation : UInt8 := 33

def doubleQuote : UInt8 := 34

def apostrophe : UInt8 := 39

def hyphen : UInt8 := 45

def isLetter (c : UInt8) : Bool := (65 ≤ c && c ≤ 90) || (97 ≤ c && c ≤ 122)

def isWhitespace (c : UInt8) : Bool := c = SP || c = LF || c = CR || c = 9 || c = 12

def lower (c : UInt8) : UInt8 := if 65 ≤ c && c ≤ 90 then c + 32 else c

/-! ## Tags -/

/-- A tag, without the values of its attributes. -/
structure Tag where
  closing : Bool
  name : Bytes
  attributes : List Bytes
  deriving DecidableEq, Repr

def Tag.addAttribute (tag : Tag) (name : Bytes) : Tag :=
  { tag with attributes := tag.attributes ++ [name] }

/-- Where in a document a byte stands. -/
inductive State where
  | data
  /-- the content of an element that has no elements in it -/
  | rawText (name : Bytes)
  | tagOpen
  | endTagOpen
  | tagName (tag : Tag)
  | beforeAttributeName (tag : Tag)
  | attributeName (tag : Tag) (name : Bytes)
  | afterAttributeName (tag : Tag)
  | beforeAttributeValue (tag : Tag)
  /-- a value in quotes, or without -/
  | attributeValue (tag : Tag) (quote : Option UInt8)
  /-- a comment, with the number of its first two hyphens that are still to come -/
  | comment (opening : ℕ)
  /-- a declaration, or something else that ends at the next `>` -/
  | bogusComment
  deriving DecidableEq, Repr

/-- The elements whose content is text up to their end tag. -/
def rawTextElements : List Bytes :=
  [str "title", str "textarea", str "style", str "script", str "xmp", str "iframe", str "noembed",
    str "noframes"]

/-- What begins with a `<` that has `c` behind it is no text. -/
def opensAt (c : UInt8) : Bool := isLetter c || c = slash || c = exclamation || c = question

/-- A `<` in front of these bytes is no text. -/
def opens (rest : Bytes) : Bool := rest.head?.any opensAt

/-- A `<` in front of these bytes begins the end tag of `name`. -/
def closes (name rest : Bytes) : Bool :=
  rest.head? = some slash && ((rest.drop 1).take name.length).map lower = name &&
    (rest.drop (name.length + 1)).head?.any fun c => isWhitespace c || c = slash || c = gt

/-- The end of a tag, and what is behind it. -/
def finish (tag : Tag) : State × Option Tag :=
  (if !tag.closing && tag.name ∈ rawTextElements then .rawText tag.name else .data, some tag)

/-- What the byte `c` with `rest` behind it leads to, and the tag that ends with it. -/
def step (state : State) (c : UInt8) (rest : Bytes) : State × Option Tag :=
  match state with
  | .data => (if c = lt && opens rest then .tagOpen else .data, none)
  | .rawText name => (if c = lt && closes name rest then .tagOpen else .rawText name, none)
  | .tagOpen =>
    if isLetter c then (.tagName ⟨false, [lower c], []⟩, none)
    else if c = slash then (.endTagOpen, none)
    else if c = exclamation && rest.take 2 = [hyphen, hyphen] then (.comment 2, none)
    else (.bogusComment, none)
  | .endTagOpen =>
    if isLetter c then (.tagName ⟨true, [lower c], []⟩, none)
    else if c = gt then (.data, none)
    else (.bogusComment, none)
  | .tagName tag =>
    if isWhitespace c || c = slash then (.beforeAttributeName tag, none)
    else if c = gt then finish tag
    else (.tagName { tag with name := tag.name ++ [lower c] }, none)
  | .beforeAttributeName tag =>
    if isWhitespace c || c = slash then (.beforeAttributeName tag, none)
    else if c = gt then finish tag
    else (.attributeName tag [lower c], none)
  | .attributeName tag name =>
    if isWhitespace c then (.afterAttributeName (tag.addAttribute name), none)
    else if c = slash then (.beforeAttributeName (tag.addAttribute name), none)
    else if c = gt then finish (tag.addAttribute name)
    else if c = equals then (.beforeAttributeValue (tag.addAttribute name), none)
    else (.attributeName tag (name ++ [lower c]), none)
  | .afterAttributeName tag =>
    if isWhitespace c then (.afterAttributeName tag, none)
    else if c = slash then (.beforeAttributeName tag, none)
    else if c = gt then finish tag
    else if c = equals then (.beforeAttributeValue tag, none)
    else (.attributeName tag [lower c], none)
  | .beforeAttributeValue tag =>
    if isWhitespace c then (.beforeAttributeValue tag, none)
    else if c = doubleQuote || c = apostrophe then (.attributeValue tag (some c), none)
    else if c = gt then finish tag
    else (.attributeValue tag none, none)
  | .attributeValue tag (some quote) =>
    (if c = quote then .beforeAttributeName tag else .attributeValue tag (some quote), none)
  | .attributeValue tag none =>
    if isWhitespace c then (.beforeAttributeName tag, none)
    else if c = gt then finish tag
    else (.attributeValue tag none, none)
  | .comment opening =>
    -- the last two hyphens of a comment may be its first two
    if c = hyphen && (rest.take 2 = [hyphen, gt] ||
        (opening = 0 && rest.take 3 = [hyphen, exclamation, gt])) then (.bogusComment, none)
    else (.comment (opening - 1), none)
  | .bogusComment => (if c = gt then .data else .bogusComment, none)

/-- The state behind `s`, which stands in front of `after`. -/
def final (state : State) : Bytes → Bytes → State
  | [], _ => state
  | c :: s, after => final (step state c (s ++ after)).1 s after

/-- The tags that end in `s`. -/
def tags (state : State) : Bytes → Bytes → List Tag
  | [], _ => []
  | c :: s, after =>
    (step state c (s ++ after)).2.toList ++ tags (step state c (s ++ after)).1 s after

/-! ## Roles -/

/-- What a byte of a document is. A byte that delimits something is markup, so that the bytes of two
attribute values never follow each other. -/
inductive Role where
  | text
  | value
  | markup
  deriving DecidableEq, Repr

def role (state : State) (c : UInt8) (rest : Bytes) : Role :=
  match state with
  | .data => if c = lt && opens rest then .markup else .text
  | .rawText name => if c = lt && closes name rest then .markup else .text
  | .beforeAttributeValue _ =>
    if isWhitespace c || c = doubleQuote || c = apostrophe || c = gt then .markup else .value
  | .attributeValue _ (some quote) => if c = quote then .markup else .value
  | .attributeValue _ none => if isWhitespace c || c = gt then .markup else .value
  | _ => .markup

/-- The roles of the bytes of `s`. -/
def roles (state : State) : Bytes → Bytes → List Role
  | [], _ => []
  | c :: s, after => role state c (s ++ after) :: roles (step state c (s ++ after)).1 s after

/-! ## Pieces -/

/-- A piece of a document: a part of the template, or a string that is inserted in it. -/
inductive Piece where
  | fixed (s : Bytes)
  | inserted (s : Bytes)
  deriving DecidableEq, Repr

def Piece.bytes : Piece → Bytes
  | .fixed s => s
  | .inserted s => s

/-- The document that is made of the pieces. -/
def document (pieces : List Piece) : Bytes := pieces.flatMap Piece.bytes

/-- Every inserted string is nothing but text, or lies inside of an attribute value. -/
def Harmless (state : State) : List Piece → Prop
  | [] => True
  | .fixed s :: pieces => Harmless (final state s (document pieces)) pieces
  | .inserted s :: pieces =>
    ((∀ r ∈ roles state s (document pieces), r = .text) ∨
      (∀ r ∈ roles state s (document pieces), r = .value)) ∧
    Harmless (final state s (document pieces)) pieces

/-- Two documents have the same tags with the same attributes, and what is inserted in them is
harmless. -/
structure SameMarkup (pieces pieces' : List Piece) : Prop where
  tags_eq : tags .data (document pieces) [] = tags .data (document pieces') []
  left : Harmless .data pieces
  right : Harmless .data pieces'

example : tags .data (str "<td><A HREF=\"/<b>\" x>3 < 4</a><!-- <b> -->") [] =
    [⟨false, str "td", []⟩, ⟨false, str "a", [str "href", str "x"]⟩, ⟨true, str "a", []⟩] := by
  decide +kernel

example : tags .data (str "<title><b></title>") [] =
    [⟨false, str "title", []⟩, ⟨true, str "title", []⟩] := by decide +kernel

/-! ## Inserted pieces -/

/-- No byte of `s` is markup. -/
def Quiet (state : State) (s after : Bytes) : Prop := ∀ r ∈ roles state s after, r ≠ .markup

/-- The role of the bytes that a state is for. -/
def State.content : State → Option Role
  | .data => some .text
  | .rawText _ => some .text
  | .attributeValue _ (some _) => some .value
  | _ => none

/-- Content is text or the value of an attribute. -/
theorem State.eq_of_content {state : State} {r : Role} (h : state.content = some r) :
    r = .text ∨ r = .value := by
  unfold State.content at h
  split at h
  · exact .inl (Option.some.inj h).symm
  · exact .inl (Option.some.inj h).symm
  · exact .inr (Option.some.inj h).symm
  · cases h

/-- In a state for text or for the value of an attribute, a byte that is not markup has the role
that the state is for, and changes nothing. -/
theorem step_of_content {state : State} {r : Role} (h : state.content = some r) {c : UInt8}
    {rest : Bytes} (hc : role state c rest ≠ .markup) :
    role state c rest = r ∧ step state c rest = (state, none) := by
  -- one condition decides whether the byte is markup and whether it changes the state
  have hcases : ∃ (p : Prop) (_ : Decidable p) (state' : State),
      role state c rest = (if p then .markup else r) ∧
        step state c rest = (if p then state' else state, none) := by
    unfold State.content at h
    split at h
    · cases h
      exact ⟨_, _, _, rfl, rfl⟩
    · cases h
      exact ⟨_, _, _, rfl, rfl⟩
    · cases h
      exact ⟨_, _, _, rfl, rfl⟩
    · cases h
  obtain ⟨p, _, state', hrole, hstep⟩ := hcases
  by_cases hp : p
  · rw [if_pos hp] at hrole
    exact absurd hrole hc
  · rw [if_neg hp] at hrole hstep
    exact ⟨hrole, hstep⟩

theorem quiet_nil (state : State) (after : Bytes) : Quiet state [] after := List.forall_mem_nil _

/-- A quiet text is quiet character by character. -/
theorem quiet_cons_iff {state : State} {r : Role} (h : state.content = some r) (c : UInt8)
    (s after : Bytes) : Quiet state (c :: s) after ↔
      role state c (s ++ after) ≠ .markup ∧ Quiet state s after := by
  rw [Quiet, roles, List.forall_mem_cons]
  apply and_congr_right
  intro hc
  rw [(step_of_content h hc).2]
  rfl

/-- What is not markup leaves the state as it is and has no tags. -/
theorem final_of_quiet {state : State} {r : Role} (h : state.content = some r) {s after : Bytes}
    (hs : Quiet state s after) :
    final state s after = state ∧ tags state s after = [] ∧ ∀ r' ∈ roles state s after, r' = r := by
  induction s with
  | nil => exact ⟨rfl, rfl, List.forall_mem_nil _⟩
  | cons c s ih =>
    obtain ⟨hc, hs⟩ := (quiet_cons_iff h c s after).mp hs
    obtain ⟨hrole, hstep⟩ := step_of_content h hc
    obtain ⟨hfinal, htags, hroles⟩ := ih hs
    rw [final, tags, roles, hstep]
    exact ⟨hfinal, htags, List.forall_mem_cons.mpr ⟨hrole, hroles⟩⟩

/-- In a state for text or for the value of an attribute, an inserted string is harmless when no
byte of it is markup. -/
theorem harmless_inserted_iff {state : State} {r : Role} (h : state.content = some r) (s : Bytes)
    (pieces : List Piece) : Harmless state (.inserted s :: pieces) ↔
      Quiet state s (document pieces) ∧ Harmless state pieces := by
  have hquiet : ((∀ r ∈ roles state s (document pieces), r = .text) ∨
      (∀ r ∈ roles state s (document pieces), r = .value)) ↔ Quiet state s (document pieces) := by
    constructor
    · rintro (htext | hvalue) r' hr'
      · simp [htext r' hr']
      · simp [hvalue r' hr']
    · intro hquiet
      have hroles := (final_of_quiet h hquiet).2.2
      rcases State.eq_of_content h with rfl | rfl
      · exact .inl hroles
      · exact .inr hroles
  rw [Harmless, hquiet]
  apply and_congr_right
  intro hs
  rw [(final_of_quiet h hs).1]

/-- No `<` in `s` is followed by what makes it the beginning of something. -/
def Plain (s : Bytes) : Prop := s.IsChain fun c d => ¬(c = lt ∧ opensAt d)

instance (s : Bytes) : Decidable (Plain s) := inferInstanceAs (Decidable (List.IsChain _ s))

/-- No character of a plain text opens a tag with what follows it. -/
theorem plain_cons_iff (c : UInt8) (s : Bytes) :
    Plain (c :: s) ↔ ¬(c = lt ∧ opens s) ∧ Plain s := by
  rw [Plain, List.isChain_cons]
  apply and_congr_left
  intro
  cases s <;> simp [opens]

/-- A text without `<` is plain. -/
theorem plain_of_lt_not_mem {s : Bytes} (h : lt ∉ s) : Plain s := by
  induction s with
  | nil => exact List.isChain_nil
  | cons c s ih =>
    obtain ⟨hc, hs⟩ := not_or.mp (mt List.mem_cons.mpr h)
    exact (plain_cons_iff c s).mpr ⟨fun hlt => hc hlt.1.symm, ih hs⟩

/-- A text that opens no tag itself has no influence on whether the text before it does. -/
theorem opens_append {s after : Bytes} (h : opens after = false) :
    opens (s ++ after) = opens s := by
  cases s with
  | nil => exact h
  | cons c s => rfl

/-- In text, the plain texts are the quiet ones. -/
theorem quiet_data_iff {s after : Bytes} (h : opens after = false) :
    Quiet .data s after ↔ Plain s := by
  induction s with
  | nil => exact iff_of_true (quiet_nil _ _) List.isChain_nil
  | cons c s ih =>
    rw [quiet_cons_iff rfl, plain_cons_iff, ih, role, opens_append h]
    simp

/-- What is text between tags is text in a title. -/
theorem quiet_rawText {s after : Bytes} (name : Bytes) (h : opens after = false) (hs : Plain s) :
    Quiet (.rawText name) s after := by
  induction s with
  | nil => exact quiet_nil _ _
  | cons c s ih =>
    obtain ⟨hc, hs⟩ := (plain_cons_iff c s).mp hs
    refine (quiet_cons_iff rfl c s after).mpr ⟨?_, ih hs⟩
    have hcloses : ∀ rest, closes name rest → opens rest := by
      intro rest hrest
      simp only [closes, Bool.and_eq_true, decide_eq_true_eq] at hrest
      rw [opens, hrest.1.1]
      rfl
    rw [role]
    split
    · rename_i hmarkup
      rw [Bool.and_eq_true, decide_eq_true_eq] at hmarkup
      exact absurd ⟨hmarkup.1, opens_append h ▸ hcloses _ hmarkup.2⟩ hc
    · exact Role.noConfusion

/-- In an attribute value, those without its quote are. -/
theorem quiet_attributeValue_iff (tag : Tag) (quote : UInt8) (s after : Bytes) :
    Quiet (.attributeValue tag (some quote)) s after ↔ quote ∉ s := by
  induction s with
  | nil => exact iff_of_true (quiet_nil _ _) List.not_mem_nil
  | cons c s ih =>
    rw [quiet_cons_iff rfl, ih, role, List.mem_cons, not_or]
    simp [eq_comm]

/-! ## Fixed pieces -/

/-- The number of bytes behind `c` that decide what it is. -/
def needs (state : State) (c : UInt8) : ℕ :=
  match state with
  | .data => if c = lt then 1 else 0
  | .rawText name => if c = lt then name.length + 2 else 0
  | .tagOpen => if c = exclamation then 2 else 0
  | .comment _ => if c = hyphen then 3 else 0
  | _ => 0

/-- Whether a tag closes an element is decided by the characters of its name and two more. -/
theorem closes_append {name rest : Bytes} (h : name.length + 2 ≤ rest.length) (after : Bytes) :
    closes name (rest ++ after) = closes name rest := by
  have hdrop : ∀ n < rest.length, ((rest ++ after).drop n).head? = (rest.drop n).head? := by
    intro n hn
    rw [List.drop_append_of_le_length hn.le, List.head?_append_of_ne_nil]
    exact List.ne_nil_of_length_pos (by rw [List.length_drop]; omega)
  have hhead := hdrop 0 (by omega)
  rw [List.drop_zero, List.drop_zero] at hhead
  rw [closes, closes, hhead, hdrop _ (by omega), List.drop_append_of_le_length (by omega),
    List.take_append_of_le_length (by rw [List.length_drop]; omega)]

/-- A step looks at no more characters than it needs. -/
theorem step_append {state : State} {c : UInt8} {rest : Bytes} (h : needs state c ≤ rest.length)
    (after : Bytes) : step state c (rest ++ after) = step state c rest := by
  have htake : ∀ n ≤ rest.length, (rest ++ after).take n = rest.take n := fun n hn =>
    List.take_append_of_le_length hn
  rcases state with _ | name | _ | _ | _ | _ | _ | _ | _ | ⟨tag, _ | quote⟩ | opening | _
  case data =>
    rcases eq_or_ne c lt with rfl | hc
    · cases rest with
      | nil => cases h
      | cons d rest => rfl
    · simp [step, hc]
  case rawText =>
    rcases eq_or_ne c lt with rfl | hc
    · rw [needs, if_pos rfl] at h
      rw [step, step, closes_append h]
    · simp [step, hc]
  case tagOpen =>
    rcases eq_or_ne c exclamation with rfl | hc
    · rw [needs, if_pos rfl] at h
      rw [step, step, htake 2 h]
    · simp [step, hc]
  case comment =>
    rcases eq_or_ne c hyphen with rfl | hc
    · rw [needs, if_pos rfl] at h
      rw [step, step, htake 2 (by omega), htake 3 h]
    · simp [step, hc]
  all_goals rfl

/-- What each byte of `s` is does not depend on what follows `s`. -/
def settled (state : State) : Bytes → Bool
  | [] => true
  | c :: s => needs state c ≤ s.length && settled (step state c s).1 s

/-- Whatever follows it, `s` leads from one state to the other and has the tags `ts`. -/
structure Reads (state : State) (s : Bytes) (state' : State) (ts : List Tag) : Prop where
  settled : settled state s = true
  final : final state s [] = state'
  tags : tags state s [] = ts

instance (state : State) (s : Bytes) (state' : State) (ts : List Tag) :
    Decidable (Reads state s state' ts) :=
  decidable_of_iff (Html.settled state s = true ∧ Html.final state s [] = state' ∧
    Html.tags state s [] = ts) ⟨fun h => ⟨h.1, h.2.1, h.2.2⟩, fun h => ⟨h.1, h.2, h.3⟩⟩

/-- From a settled reading on, what follows has no influence on what was read. -/
theorem final_of_settled {state : State} {s : Bytes} (h : settled state s) (after : Bytes) :
    final state s after = final state s [] ∧ tags state s after = tags state s [] := by
  induction s generalizing state with
  | nil => exact ⟨rfl, rfl⟩
  | cons c s ih =>
    rw [settled, Bool.and_eq_true, decide_eq_true_eq] at h
    simp only [final, tags, List.append_nil, step_append h.1]
    obtain ⟨hfinal, htags⟩ := ih h.2
    rw [hfinal, htags]
    exact ⟨rfl, rfl⟩

/-- A reading goes on in the same way before any text. -/
theorem Reads.append {state state' : State} {s : Bytes} {ts : List Tag}
    (h : Reads state s state' ts) (after : Bytes) :
    Html.final state s after = state' ∧ Html.tags state s after = ts := by
  obtain ⟨hfinal, htags⟩ := final_of_settled h.settled after
  rw [hfinal, htags]
  exact ⟨h.final, h.tags⟩

/-- The tags of a text are those of its first part, and those of the rest in the state behind it. -/
theorem tags_append (state : State) (s t after : Bytes) :
    tags state (s ++ t) after =
      tags state s (t ++ after) ++ tags (final state s (t ++ after)) t after := by
  induction s generalizing state with
  | nil => rfl
  | cons c s ih =>
    rw [List.cons_append, tags, tags, final, ih, List.append_assoc, List.append_assoc]

/-- A fixed piece that is read hands over its last state. -/
theorem Reads.harmless_iff {state state' : State} {s : Bytes} {ts : List Tag}
    (h : Reads state s state' ts) (pieces : List Piece) :
    Harmless state (.fixed s :: pieces) ↔ Harmless state' pieces := by
  rw [Harmless, (h.append _).1]

/-- It adds its own tags in front. -/
theorem Reads.tags_eq {state state' : State} {s : Bytes} {ts : List Tag}
    (h : Reads state s state' ts) (pieces : List Piece) :
    Html.tags state (document (.fixed s :: pieces)) [] =
      ts ++ Html.tags state' (document pieces) [] := by
  rw [document, List.flatMap_cons, tags_append, List.append_nil, Piece.bytes, (h.append _).1,
    (h.append _).2]
  rfl

/-- A harmless string has no tags in it. -/
theorem tags_inserted {state : State} {r : Role} (h : state.content = some r) {s : Bytes}
    {pieces : List Piece} (hs : Quiet state s (document pieces)) :
    tags state (document (.inserted s :: pieces)) [] = tags state (document pieces) [] := by
  obtain ⟨hfinal, htags, -⟩ := final_of_quiet h hs
  rw [document, List.flatMap_cons, tags_append, List.append_nil, Piece.bytes, ← document, hfinal,
    htags, List.nil_append]

/-! ## Templates -/

/-- From the state `state`, the pieces are harmless exactly when `P` holds; they then have the tags
`ts` and lead to the state `state'`. -/
structure Yields (state : State) (pieces : List Piece) (P : Prop) (ts : List Tag)
    (state' : State) : Prop where
  harmless : ∀ rest, Harmless state (pieces ++ rest) ↔ P ∧ Harmless state' rest
  tags : P → ∀ rest,
    tags state (document (pieces ++ rest)) [] = ts ++ tags state' (document rest) []

namespace Yields

variable {state state' state'' : State} {pieces pieces' : List Piece} {P Q : Prop}
  {ts us : List Tag} {s t : Bytes}

theorem nil (state : State) : Yields state [] True [] state where
  harmless _ := (and_iff_right trivial).symm
  tags _ _ := rfl

/-- Two templates one after the other. -/
theorem append (h : Yields state pieces P ts state') (h' : Yields state' pieces' Q us state'') :
    Yields state (pieces ++ pieces') (P ∧ Q) (ts ++ us) state'' where
  harmless rest := by
    rw [List.append_assoc, h.harmless, h'.harmless, and_assoc]
  tags hPQ rest := by
    rw [List.append_assoc, h.tags hPQ.1, h'.tags hPQ.2, List.append_assoc]

theorem fixed (h : Reads state s state' ts) : Yields state [.fixed s] True ts state' where
  harmless rest := (h.harmless_iff rest).trans (and_iff_right trivial).symm
  tags _ rest := h.tags_eq rest

/-- A string that is not markup exactly when `P` holds, in front of a fixed piece. -/
theorem inserted {r : Role} (hr : state.content = some r) (h : Reads state t state' ts)
    (hP : ∀ rest, Quiet state s (t ++ rest) ↔ P) :
    Yields state [.inserted s, .fixed t] P ts state' where
  harmless rest := by
    show Harmless state (.inserted s :: .fixed t :: rest) ↔ _
    rw [harmless_inserted_iff hr, h.harmless_iff]
    exact and_congr_left fun _ => hP (document rest)
  tags hs rest := by
    show Html.tags state (document (.inserted s :: .fixed t :: rest)) [] = _
    rw [tags_inserted hr ((hP (document rest)).mpr hs), h.tags_eq]

/-- The first characters decide whether a tag is opened. -/
theorem opens_append_of_ne_nil (ht : t ≠ []) (rest : Bytes) : opens (t ++ rest) = opens t := by
  rw [opens, opens, List.head?_append_of_ne_nil _ ht]

/-- A string between tags. -/
theorem text (s : Bytes) (h : Reads .data t state' ts) (ht : t ≠ [] ∧ opens t = false) :
    Yields .data [.inserted s, .fixed t] (Plain s) ts state' :=
  inserted rfl h fun rest => quiet_data_iff ((opens_append_of_ne_nil ht.1 rest).trans ht.2)

/-- A string in quotes. -/
theorem value {tag : Tag} {quote : UInt8} (s : Bytes)
    (h : Reads (.attributeValue tag (some quote)) t state' ts) :
    Yields (.attributeValue tag (some quote)) [.inserted s, .fixed t] (quote ∉ s) ts state' :=
  inserted rfl h fun rest => quiet_attributeValue_iff tag quote s (t ++ rest)

/-- A string in a title, which the pieces behind it ask to be text. -/
theorem rawText {name : Bytes} (h : Reads (.rawText name) t state' ts)
    (ht : t ≠ [] ∧ opens t = false) (h' : Yields state' pieces P us state'') (hP : P → Plain s) :
    Yields (.rawText name) (.inserted s :: .fixed t :: pieces) P (ts ++ us) state'' where
  harmless rest := by
    show Harmless _ (.inserted s :: .fixed t :: (pieces ++ rest)) ↔ _
    rw [harmless_inserted_iff rfl, h.harmless_iff, h'.harmless, and_iff_right_iff_imp]
    intro hs
    have hopens := (opens_append_of_ne_nil ht.1 (document (pieces ++ rest))).trans ht.2
    exact quiet_rawText name hopens (hP hs.1)
  tags hs rest := by
    show Html.tags _ (document (.inserted s :: .fixed t :: (pieces ++ rest))) [] = _
    have hopens := (opens_append_of_ne_nil ht.1 (document (pieces ++ rest))).trans ht.2
    have hquiet : Quiet (.rawText name) s (document (.fixed t :: (pieces ++ rest))) :=
      quiet_rawText name hopens (hP hs)
    rw [tags_inserted rfl hquiet, h.tags_eq, h'.tags hs, List.append_assoc]

/-- A part of a template that is repeated. -/
theorem flatMap {α : Type} {f : α → List Piece} {p : α → Prop}
    (h : ∀ x, Yields state (f x) (p x) ts state) (l : List α) :
    Yields state (l.flatMap f) (∀ x ∈ l, p x) (List.replicate l.length ts).flatten state := by
  induction l with
  | nil =>
    have hnil := nil state
    rwa [← iff_true_intro (List.forall_mem_nil p)] at hnil
  | cons x l ih =>
    rw [List.forall_mem_cons, List.flatMap_cons, List.length_cons, List.replicate_succ,
      List.flatten_cons]
    exact (h x).append ih

/-- When the documents made of two templates have the same markup. -/
theorem sameMarkup_iff (h : Yields .data pieces P ts state)
    (h' : Yields .data pieces' Q us state') :
    SameMarkup pieces pieces' ↔ ts = us ∧ P ∧ Q := by
  have hharmless := h.harmless []
  have hharmless' := h'.harmless []
  rw [List.append_nil, Harmless, and_true] at hharmless hharmless'
  have htags : P → Html.tags .data (document pieces) [] = ts := fun hP => by
    have := h.tags hP []
    simpa [document, Html.tags] using this
  have htags' : Q → Html.tags .data (document pieces') [] = us := fun hQ => by
    have := h'.tags hQ []
    simpa [document, Html.tags] using this
  constructor
  · rintro ⟨heq, hleft, hright⟩
    have hP := hharmless.mp hleft
    have hQ := hharmless'.mp hright
    rw [htags hP, htags' hQ] at heq
    exact ⟨heq, hP, hQ⟩
  · rintro ⟨heq, hP, hQ⟩
    refine ⟨?_, hharmless.mpr hP, hharmless'.mpr hQ⟩
    rw [htags hP, htags' hQ, heq]

end Yields

end Html
