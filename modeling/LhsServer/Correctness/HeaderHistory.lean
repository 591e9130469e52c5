import LhsServer.Protocol.Http.Request
import LhsServer.Protocol.Http.Response

/-!
# The history of a header

A header is used through `operator[]` alone, which looks up and assigns by creating an entry first.
What it holds after a sequence of such operations, and when it can be written out.

- `get?_run`: under each name there is the value assigned last, and nothing but an entry where a
  name has only been looked up;
- `WritesLast`: the header is written out with one line for each name that was assigned;
- `LastIsText`: every name that was used has last been assigned a string;
- `writesLast_iff`: the sequences for which the header is written out so, and the look-ups that
  leave unchanged what requests and responses write.
-/

namespace Lhs.Http.Header

open Bytes

/-- The values that are assigned to fields. -/
inductive Value where
  | string (s : Bytes)
  | literal (s : Bytes)
  | int (n : ℤ)
  deriving DecidableEq

/-- What is stored of a value. -/
def Value.toAny : Value → Any
  | .string s => .string s
  | .literal s => .string s
  | .int n => .int n

/-- A value as text. -/
def Value.text : Value → Bytes
  | .string s => s
  | .literal s => s
  | .int n => decimal n

/-- An operation on a header. -/
inductive Operation where
  /-- `h[key] = value` -/
  | assign (key : Bytes) (value : Value)
  /-- `h[key]`, to look the field up -/
  | read (key : Bytes)

namespace Operation

def key : Operation → Bytes
  | .assign key _ => key
  | .read key => key

/-- The binding that an assignment makes. -/
def binding : Operation → Option (Bytes × Value)
  | .assign key value => some (key, value)
  | .read _ => none

/-- What the header is after the operation. -/
def apply (h : Header) : Operation → Header
  | .assign key value => (h.subscript key).2.assign key value.toAny
  | .read key => (h.subscript key).2

end Operation

/-- The header after a sequence of operations. -/
def run (ops : List Operation) : Header := ops.foldl Operation.apply .empty

/-- The value assigned last to a field. -/
def lastValue (ops : List Operation) (key : Bytes) : Option Value :=
  Bindings.last? key (ops.filterMap Operation.binding)

/-- The header is written out in the order of the names, with one line for each field that was
assigned, which has the value assigned last. -/
def WritesLast (ops : List Operation) : Prop :=
  ∃ lines : List (Bytes × Value), lines.Pairwise (fun a b => compare a.1 b.1 = .lt) ∧
    (∀ key value, (key, value) ∈ lines ↔ lastValue ops key = some value) ∧
    (run ops).toString = .ok (lines.flatMap fun line => field line.1 line.2.text)

/-- Every field that was assigned or looked up, other than those with the given names, has last been
assigned a string. -/
def LastIsText (names : List Bytes) (ops : List Operation) : Prop :=
  ∀ op ∈ ops, op.key ∉ names → ∃ value, lastValue ops op.key = some value ∧ IsString value.toAny

/-! ## The state after a sequence of operations -/

/-- What an operation does to the field of a name. -/
theorem get?_apply (h : Header) (op : Operation) (k : Bytes) :
    (op.apply h).get? k =
      if k = op.key then
        some ((op.binding.map fun b => b.2.toAny).getD ((h.get? k).getD .empty))
      else h.get? k := by
  cases op with
  | assign key value =>
    rw [Operation.apply, get?_assign, get?_subscript]
    split <;> simp_all [Operation.key, Operation.binding]
  | read key =>
    rw [Operation.apply, get?_subscript]
    split <;> simp_all [Operation.key, Operation.binding]

/-- The last operation of a history. -/
theorem run_append (ops : List Operation) (op : Operation) :
    run (ops ++ [op]) = op.apply (run ops) := by
  rw [run, List.foldl_append]
  rfl

/-- The last value that a name was given, after one more operation. -/
theorem lastValue_append (ops : List Operation) (op : Operation) (k : Bytes) :
    lastValue (ops ++ [op]) k =
      (op.binding.bind fun b => if b.1 = k then some b.2 else none).or (lastValue ops k) := by
  rw [lastValue, List.filterMap_append, Bindings.last?_append]
  cases hop : op.binding <;> simp [hop, lastValue]

/-- Under each name there is the value assigned last, and an entry without a value where the name
has only been looked up. -/
theorem get?_run (ops : List Operation) (k : Bytes) :
    (run ops).get? k =
      ((lastValue ops k).map Value.toAny).or
        (if k ∈ ops.map Operation.key then some .empty else none) := by
  induction ops using List.reverseRecOn with
  | nil => rfl
  | append_singleton ops op ih =>
    rw [run_append, get?_apply, lastValue_append, ih]
    simp only [List.map_append, List.map_singleton, List.mem_append, List.mem_singleton]
    by_cases hk : k = op.key
    · cases op with
      | assign key value =>
        have hkey : key = k := hk.symm
        simp [Operation.binding, Operation.key, hkey]
      -- a look-up adds an entry only where there is none
      | read key =>
        have hkey : key = k := hk.symm
        rcases lastValue ops k with _ | value
        · by_cases hmem : k ∈ ops.map Operation.key
          · simp [Operation.binding, Operation.key, hkey, hmem]
          · simp [Operation.binding, Operation.key, hkey, hmem]
        · simp [Operation.binding, Operation.key, hkey]
    · cases op with
      | assign key value =>
        have hkey : key ≠ k := Ne.symm hk
        simp [Operation.binding, Operation.key, hkey, Ne.symm hkey]
      | read key =>
        have hkey : k ≠ key := hk
        simp [Operation.binding, Operation.key, hkey]

/-- A name that was given a value was operated on. -/
theorem mem_keys_of_lastValue {ops : List Operation} {k : Bytes} {value : Value}
    (h : lastValue ops k = some value) : k ∈ ops.map Operation.key := by
  obtain ⟨l, r, hbindings, -⟩ := Bindings.last?_eq_some_iff.mp h
  have hmem : (k, value) ∈ ops.filterMap Operation.binding := by simp [hbindings]
  obtain ⟨op, hop, hbinding⟩ := List.mem_filterMap.mp hmem
  refine List.mem_map.mpr ⟨op, hop, ?_⟩
  cases op with
  | assign key v => exact (Prod.mk.inj (Option.some.inj hbinding)).1
  | read key => cases hbinding

/-- The header has an entry under the names that were used. -/
theorem isSome_get?_run (ops : List Operation) (k : Bytes) :
    ((run ops).get? k).isSome ↔ k ∈ ops.map Operation.key := by
  rw [get?_run]
  cases hlast : lastValue ops k with
  | none => by_cases h : k ∈ ops.map Operation.key <;> simp [h]
  | some value => simpa using mem_keys_of_lastValue hlast

/-! ## Writing out -/

/-- Where the last value under every name is text, an entry of the header is such a value. -/
theorem exists_lastValue_of_get? {names : List Bytes} {ops : List Operation}
    (h : LastIsText names ops) {k : Bytes} {stored : Any} (hnames : k ∉ names)
    (hget : (run ops).get? k = some stored) :
    ∃ value, lastValue ops k = some value ∧ stored = value.toAny ∧ IsString value.toAny := by
  have hused : k ∈ ops.map Operation.key := by
    rw [← isSome_get?_run, hget]
    rfl
  obtain ⟨op, hop, rfl⟩ := List.mem_map.mp hused
  obtain ⟨value, hlast, hvalue⟩ := h op hop hnames
  rw [get?_run, hlast, Option.map_some, Option.some_or, Option.some.injEq] at hget
  exact ⟨value, hlast, hget.symm, hvalue⟩

/-- The header after a history has only strings, some names apart, when those other names were given
texts last. -/
theorem stringsExcept_run_iff (names : List Bytes) (ops : List Operation) :
    (run ops).StringsExcept names ↔ LastIsText names ops := by
  constructor
  · intro h op hop hnames
    have hget := get?_run ops op.key
    rw [if_pos (List.mem_map_of_mem hop)] at hget
    cases hlast : lastValue ops op.key with
    -- only looked up
    | none =>
      rw [hlast] at hget
      exact absurd (h _ _ hnames hget) (by decide)
    | some value =>
      rw [hlast] at hget
      exact ⟨value, rfl, h _ _ hnames hget⟩
  · intro h k stored hnames hget
    obtain ⟨value, -, rfl, hvalue⟩ := exists_lastValue_of_get? h hnames hget
    exact hvalue

/-- The text of a value is what it was given as. -/
theorem text_toAny {value : Value} (h : IsString value.toAny) :
    Header.text value.toAny = value.text := by
  cases value with
  | string s => rfl
  | literal s => rfl
  | int n => exact absurd h (by simp [IsString, Value.toAny])

/-- A header that can be written out has the values assigned last in it, in the order of names. -/
theorem writesLast_of_allStrings {ops : List Operation} (h : (run ops).AllStrings) :
    WritesLast ops := by
  have htext : LastIsText [] ops := (stringsExcept_run_iff [] ops).mp ((stringsExcept_nil _).mpr h)
  -- the fields of the header, each with the value assigned last
  have hfield : ∀ it ∈ (run ops).fields, ∃ value, lastValue ops it.1 = some value ∧
      Header.text it.2 = value.text := by
    intro it hit
    obtain ⟨value, hlast, hstored, hvalue⟩ :=
      exists_lastValue_of_get? htext List.not_mem_nil (mem_fields_iff.mp hit)
    exact ⟨value, hlast, hstored ▸ text_toAny hvalue⟩
  let lines := (run ops).fields.map fun it => (it.1, (lastValue ops it.1).getD (.literal []))
  refine ⟨lines, ?_, fun key value => ?_, ?_⟩
  · rw [List.pairwise_map]
    exact Std.ExtTreeMap.ordered_keys_toList
  · constructor
    · intro hmem
      obtain ⟨it, hit, heq⟩ := List.mem_map.mp hmem
      obtain ⟨rfl, rfl⟩ := Prod.mk.inj heq
      obtain ⟨value, hlast, -⟩ := hfield it hit
      rw [hlast, Option.getD_some]
    · intro hlast
      have hsome : ((run ops).get? key).isSome :=
        (isSome_get?_run ops key).mpr (mem_keys_of_lastValue hlast)
      obtain ⟨stored, hstored⟩ := Option.isSome_iff_exists.mp hsome
      refine List.mem_map.mpr ⟨(key, stored), mem_fields_iff.mpr hstored, ?_⟩
      rw [hlast, Option.getD_some]
  · rw [toString_of_allStrings h, List.flatMap_map]
    congr 1
    apply List.flatMap_congr
    intro it hit
    obtain ⟨value, hlast, hvalue⟩ := hfield it hit
    rw [hlast, Option.getD_some, hvalue]

/-- All last values are written exactly when the header has only strings. -/
theorem writesLast_iff_allStrings (ops : List Operation) :
    WritesLast ops ↔ (run ops).AllStrings := by
  refine ⟨?_, writesLast_of_allStrings⟩
  rintro ⟨lines, -, -, hlines⟩
  by_contra hall
  rw [toString_of_not_allStrings hall] at hlines
  cases hlines

/-! ## Look-ups -/

/-- An entry without a value cannot be written out. -/
theorem stringsExcept_subscript_iff {h : Header} {key : Bytes} (hkey : h.get? key = none)
    (names : List Bytes) :
    (h.subscript key).2.StringsExcept names ↔ h.StringsExcept names ∧ key ∈ names := by
  constructor
  · intro hall
    have hmem : key ∈ names := by
      by_contra hnames
      have hget := get?_subscript h key key
      rw [if_pos rfl, hkey, Option.getD_none] at hget
      exact absurd (hall key .empty hnames hget) (by decide)
    refine ⟨fun k value hnames hget => hall k value hnames ?_, hmem⟩
    have hne : k ≠ key := by
      rintro rfl
      exact hnames hmem
    rw [get?_subscript, if_neg hne, hget]
  · rintro ⟨hall, hmem⟩ k value hnames hget
    have hne : k ≠ key := by
      rintro rfl
      exact hnames hmem
    rw [get?_subscript, if_neg hne] at hget
    exact hall k value hnames hget

end Lhs.Http.Header

namespace Lhs.Http

open Bytes

/-- A field that holds no string makes `to_string` throw. -/
theorem Request.toString_of_not_allStrings {request : Request}
    (h : ¬request.header.AllStrings) : request.toString = .error (.throw .badAnyCast) := by
  rw [toString, Header.toString_of_not_allStrings h]
  rfl

/-- Otherwise it returns. -/
theorem Request.exists_toString_of_allStrings {request : Request}
    (h : request.header.AllStrings) : ∃ text, request.toString = .ok text := by
  rw [toString, Header.toString_of_allStrings h]
  exact ⟨_, rfl⟩

/-- Looking a field up changes what a request writes exactly when the field is missing and the
request could be written before. -/
theorem Request.toString_subscript_iff (request : Request) (key : Bytes) :
    (request.subscript key).2.toString = request.toString ↔
      (request.header.get? key).isSome ∨ ¬request.header.AllStrings := by
  cases hkey : request.header.get? key with
  | some value =>
    have hsame : (request.subscript key).2 = request := by
      rw [subscript, Header.subscript_of_isSome (by simp [hkey])]
    exact iff_of_true (by rw [hsame]) (Or.inl rfl)
  | none =>
    have hempty : ¬(request.subscript key).2.header.AllStrings := by
      intro hall
      rw [← Header.stringsExcept_nil, subscript, Header.stringsExcept_subscript_iff hkey] at hall
      exact List.not_mem_nil hall.2
    rw [toString_of_not_allStrings hempty, or_iff_right (by simp)]
    constructor
    · intro heq hall
      obtain ⟨text, htext⟩ := exists_toString_of_allStrings hall
      rw [htext] at heq
      cases heq
    · intro hall
      rw [toString_of_not_allStrings hall]

/-- Looking up a field that `write` sets makes no difference to what it writes. -/
theorem Response.stamp_subscript (mgz : Mgz) (response : Response) {key : Bytes}
    (hkey : key ∈ stampedNames) : (response.subscript key).2.stamp mgz = response.stamp mgz := by
  rw [stamp, stamp]
  ext1
  · rfl
  · rfl
  · rfl
  · ext1 k
    simp only [header_assign, Header.get?_assign]
    by_cases hk : k ∈ stampedNames
    · simp only [stampedNames, List.mem_cons, List.not_mem_nil, or_false] at hk
      rcases hk with rfl | rfl | rfl <;> simp [subscript]
    · have hne : k ≠ key := fun h => hk (h ▸ hkey)
      rw [subscript, Header.get?_subscript, if_neg hne]

/-- Looking a field up changes what `write` hands to the socket exactly when the field is missing,
is none of those that `write` sets, and the response could be written before. -/
theorem Response.assemble_subscript_iff (mgz : Mgz) (response : Response) (key : Bytes) :
    (response.subscript key).2.assemble mgz = response.assemble mgz ↔
      (response.header.get? key).isSome ∨ key ∈ stampedNames ∨
        ¬response.header.StringsExcept stampedNames := by
  cases hkey : response.header.get? key with
  | some value =>
    have hsame : (response.subscript key).2 = response := by
      rw [subscript, Header.subscript_of_isSome (by simp [hkey])]
    exact iff_of_true (by rw [hsame]) (Or.inl rfl)
  | none =>
    rw [or_iff_right (by simp)]
    by_cases hstamped : key ∈ stampedNames
    · refine iff_of_true ?_ (Or.inl hstamped)
      rw [assemble, assemble, stamp_subscript mgz response hstamped]
    · have hempty : ¬(response.subscript key).2.header.StringsExcept stampedNames := by
        intro hall
        rw [subscript, Header.stringsExcept_subscript_iff hkey] at hall
        exact hstamped hall.2
      rw [assemble_of_not_stringsExcept mgz hempty, or_iff_right hstamped]
      constructor
      · intro heq hall
        rw [assemble_of_stringsExcept mgz hall] at heq
        cases heq
      · intro hall
        rw [assemble_of_not_stringsExcept mgz hall]

namespace Header

/-- After a sequence of operations the header is written out as it should be exactly when every
field that was assigned or looked up has last been assigned a string. A further look-up leaves
unchanged what a request or a response with this header writes, exactly when the field has been used
before, or is set by `write`, or nothing could be written before. -/
theorem writesLast_iff (mgz : Mgz) (ops : List Operation) :
    (WritesLast ops ↔ LastIsText [] ops) ∧
      (∀ request : Request, request.header = run ops → ∀ key,
        (request.subscript key).2.toString = request.toString ↔
          key ∈ ops.map Operation.key ∨ ¬LastIsText [] ops) ∧
      (∀ response : Response, response.header = run ops → ∀ key,
        (response.subscript key).2.assemble mgz = response.assemble mgz ↔
          key ∈ ops.map Operation.key ∨ key ∈ Response.stampedNames ∨
            ¬LastIsText Response.stampedNames ops) := by
  refine ⟨?_, fun request hrequest key => ?_, fun response hresponse key => ?_⟩
  · rw [writesLast_iff_allStrings, ← stringsExcept_nil, stringsExcept_run_iff]
  · rw [Request.toString_subscript_iff, hrequest, isSome_get?_run, ← stringsExcept_nil,
      stringsExcept_run_iff]
  · rw [Response.assemble_subscript_iff, hresponse, isSome_get?_run, stringsExcept_run_iff]

theorem writesLast_sample :
    WritesLast [.read (str "Accept"), .assign (str "Accept") (.string (str "text/html")),
      .assign (str "Accept") (.literal (str "*/*"))] := by
  refine (writesLast_iff .plain _).1.mpr ?_
  intro op hop _
  refine ⟨.literal (str "*/*"), ?_, rfl⟩
  simp only [List.mem_cons, List.not_mem_nil, or_false] at hop
  rcases hop with rfl | rfl | rfl <;> rfl

/-- The operations of a header with an integer in it, and a look-up of a field that is not there. -/
theorem writesLast_fails :
    (run [.assign (str "Content-Length") (.int 10),
        .assign (str "User-Agent") (.literal (str "Test/1.0.0"))]).toString =
      .error (.throw .badAnyCast) ∧
    (run [.assign (str "User-Agent") (.literal (str "Test/1.0.0")),
        .read (str "Accept")]).toString = .error (.throw .badAnyCast) ∧
    ¬WritesLast [.assign (str "Content-Length") (.int 10),
      .assign (str "User-Agent") (.literal (str "Test/1.0.0"))] ∧
    ¬WritesLast [.assign (str "User-Agent") (.literal (str "Test/1.0.0")),
      .read (str "Accept")] := by
  have hint : (run [.assign (str "Content-Length") (.int 10),
      .assign (str "User-Agent") (.literal (str "Test/1.0.0"))]).toString =
      .error (.throw .badAnyCast) :=
    toString_of_not_allStrings fun h => absurd (h (str "Content-Length") (.int 10) rfl) (by decide)
  have hread : (run [.assign (str "User-Agent") (.literal (str "Test/1.0.0")),
      .read (str "Accept")]).toString = .error (.throw .badAnyCast) :=
    toString_of_not_allStrings fun h => absurd (h (str "Accept") .empty rfl) (by decide)
  refine ⟨hint, hread, ?_, ?_⟩
  · rintro ⟨lines, -, -, hlines⟩
    rw [hint] at hlines
    cases hlines
  · rintro ⟨lines, -, -, hlines⟩
    rw [hread] at hlines
    cases hlines

end Header

end Lhs.Http
