import LhsServer.Library.Bindings
import LhsServer.Runtime

/-!
# Header fields

`lhs::http::header`: a `std::map` from field names to `mgz::util::any` values, written out field by
field in the order of the names. The map is an `ExtTreeMap` over the lexicographic order of byte
strings, the order of `std::string`; two headers are equal when they hold the same fields
(`Header.ext_get`).

A value is a string, an integer or nothing at all. Only a string can be written out: `anyCast`
fails on the other two, and `Header.toString` with it.
-/

namespace Lhs.Http

open Bytes

/-- `mgz::util::any` with the types the server and its tests store; a literal is a string. -/
inductive Any where
  | empty
  | string (s : Bytes)
  | int (n : ℤ)
  deriving DecidableEq, Repr

/-- `mgz::util::any_cast<std::string>`. -/
def anyCast : Any → Run Bytes
  | .string s => .ok s
  | .empty => .error (.throw .badAnyCast)
  | .int _ => .error (.throw .badAnyCast)

/-- `lhs::http::header`, the field `datas_`. -/
structure Header where
  datas : Std.ExtTreeMap Bytes Any

namespace Header

/-- A header without fields. -/
def empty : Header := ⟨∅⟩

/-- The value under a name, if the map has that name. -/
def get? (h : Header) (key : Bytes) : Option Any := h.datas[key]?

/-- `h[key]`: the entry under `key`, created empty where there is none. -/
def subscript (h : Header) (key : Bytes) : Any × Header :=
  match h.get? key with
  | some value => (value, h)
  | none => (.empty, ⟨h.datas.insert key .empty⟩)

/-- `h[key] = value`. -/
def assign (h : Header) (key : Bytes) (value : Any) : Header := ⟨h.datas.insert key value⟩

/-- One field as `to_string` writes it. -/
def field (name value : Bytes) : Bytes := name ++ str ": " ++ value ++ str "\r\n"

/-- The fields of the header in the order of their names. -/
def fields (h : Header) : List (Bytes × Any) := h.datas.toList

/-- The body of the loop of `to_string`. -/
def appendField (result : Bytes) (it : Bytes × Any) : Run Bytes := do
  let value ← anyCast it.2
  return result ++ field it.1 value

/-- `header::to_string`. -/
def toString (h : Header) : Run Bytes := h.fields.foldlM appendField []

/-! ## Reading after writing -/

/-- Two headers with the same fields are the same. -/
@[ext] theorem ext_get {h h' : Header} (heq : ∀ key, h.get? key = h'.get? key) : h = h' := by
  obtain ⟨t⟩ := h
  obtain ⟨t'⟩ := h'
  congr 1
  exact Std.ExtTreeMap.ext_getElem? heq

@[simp] theorem get?_empty (key : Bytes) : empty.get? key = none := by
  simp [get?, empty]

/-- An assignment changes the field of its key, and no other. -/
theorem get?_assign (h : Header) (key k : Bytes) (value : Any) :
    (h.assign key value).get? k = if k = key then some value else h.get? k := by
  simp only [get?, assign, Std.ExtTreeMap.getElem?_insert, Std.LawfulEqCmp.compare_eq_iff_eq]
  by_cases hk : k = key
  · simp [hk]
  · simp [hk, Ne.symm hk]

@[simp] theorem get?_assign_self (h : Header) (key : Bytes) (value : Any) :
    (h.assign key value).get? key = some value := by
  simp [get?_assign]

theorem get?_assign_of_ne (h : Header) {key k : Bytes} (value : Any) (hne : k ≠ key) :
    (h.assign key value).get? k = h.get? k := by
  simp [get?_assign, hne]

/-- A look-up leaves every field as it is, and adds the one that is looked up where there is none.
-/
theorem get?_subscript (h : Header) (key k : Bytes) :
    (h.subscript key).2.get? k = if k = key then some ((h.get? key).getD .empty) else h.get? k := by
  rw [subscript]
  split
  · rename_i value hkey
    split
    · rename_i hk
      rw [hk, hkey, Option.getD_some]
    · rfl
  · rename_i hkey
    rw [hkey, Option.getD_none]
    exact get?_assign h key k .empty

/-- The subscript of a field that is there leaves the header as it is. -/
theorem subscript_of_isSome {h : Header} {key : Bytes} (hkey : (h.get? key).isSome) :
    (h.subscript key).2 = h := by
  obtain ⟨value, hvalue⟩ := Option.isSome_iff_exists.mp hkey
  rw [subscript, hvalue]

/-- The second of two assignments to one field replaces the first. -/
@[simp] theorem assign_assign (h : Header) (key : Bytes) (v w : Any) :
    (h.assign key v).assign key w = h.assign key w := by
  ext1 k
  simp only [get?_assign]
  split <;> rfl

/-- Assignments to different fields commute. -/
theorem assign_comm (h : Header) {key k : Bytes} (hne : key ≠ k) (v w : Any) :
    (h.assign key v).assign k w = (h.assign k w).assign key v := by
  ext1 j
  simp only [get?_assign]
  by_cases hj : j = k
  · simp [hj, Ne.symm hne]
  · simp [hj]

/-- Assigning to a field the value it has changes nothing. -/
theorem assign_eq_self {h : Header} {key : Bytes} {value : Any} (heq : h.get? key = some value) :
    h.assign key value = h := by
  ext1 k
  rw [get?_assign]
  split
  · rename_i hk
    rw [hk, heq]
  · rfl

/-! ## Writing out -/

/-- The fields in order are the fields of the map. -/
theorem mem_fields_iff {h : Header} {key : Bytes} {value : Any} :
    (key, value) ∈ h.fields ↔ h.get? key = some value :=
  Std.ExtTreeMap.mem_toList_iff_getElem?_eq_some

/-- The names of the fields are distinct. -/
theorem nodup_fields (h : Header) : (h.fields.map Prod.fst).Nodup :=
  Bindings.nodup_toList h.datas

/-- The characters of a string value. -/
def text : Any → Bytes
  | .string s => s
  | .empty => []
  | .int _ => []

/-- The value is a string. -/
def IsString (value : Any) : Prop := value = .string (text value)

instance (value : Any) : Decidable (IsString value) := inferInstanceAs (Decidable (_ = _))

/-- Every value is a string, so that the header can be written out. -/
def AllStrings (h : Header) : Prop := ∀ key value, h.get? key = some value → IsString value

/-- Every value is a string, except for those under the given names. -/
def StringsExcept (h : Header) (names : List Bytes) : Prop :=
  ∀ key value, key ∉ names → h.get? key = some value → IsString value

/-- Without exceptions all fields hold strings. -/
theorem stringsExcept_nil (h : Header) : h.StringsExcept [] ↔ h.AllStrings := by
  simp [StringsExcept, AllStrings]

theorem stringsExcept_empty (names : List Bytes) : empty.StringsExcept names := by
  simp [StringsExcept]

/-- After a string is assigned to a field, it does not matter what the field held before. -/
theorem stringsExcept_assign_iff (h : Header) (key s : Bytes) (names : List Bytes) :
    (h.assign key (.string s)).StringsExcept names ↔ h.StringsExcept (key :: names) := by
  constructor
  · intro hall k value hk hget
    obtain ⟨hne, hnames⟩ := not_or.mp (mt List.mem_cons.mpr hk)
    apply hall k value hnames
    rw [get?_assign_of_ne _ _ hne, hget]
  · intro hall k value hnames hget
    by_cases hk : k = key
    -- under `key` itself there is the string
    · rw [hk, get?_assign_self, Option.some.injEq] at hget
      rw [← hget]
      rfl
    · rw [get?_assign_of_ne _ _ hk] at hget
      exact hall k value (mt List.mem_cons.mp (not_or.mpr ⟨hk, hnames⟩)) hget

/-- The header has only strings exactly when the loop meets only strings. -/
theorem allStrings_iff (h : Header) : h.AllStrings ↔ ∀ it ∈ h.fields, IsString it.2 :=
  ⟨fun hall it hit => hall it.1 it.2 (mem_fields_iff.mp hit),
    fun hall key value hget => hall (key, value) (mem_fields_iff.mpr hget)⟩

/-- A field with a string adds its line. -/
theorem appendField_of_isString {it : Bytes × Any} (hit : IsString it.2) (result : Bytes) :
    appendField result it = .ok (result ++ field it.1 (text it.2)) := by
  rw [appendField, hit]
  rfl

/-- The cast of any other value throws. -/
theorem appendField_of_not_isString {it : Bytes × Any} (hit : ¬IsString it.2) (result : Bytes) :
    appendField result it = .error (.throw .badAnyCast) := by
  obtain ⟨name, value⟩ := it
  cases value with
  | string s => exact absurd rfl hit
  | empty => rfl
  | int n => rfl

/-- The loop over fields with strings adds all lines. -/
theorem foldlM_appendField_of_isString {fields : List (Bytes × Any)}
    (hall : ∀ it ∈ fields, IsString it.2) (result : Bytes) :
    fields.foldlM appendField result =
      .ok (result ++ fields.flatMap fun it => field it.1 (text it.2)) := by
  induction fields generalizing result with
  | nil => simp [pure, Except.pure]
  | cons it fields ih =>
    simp only [List.forall_mem_cons] at hall
    rw [List.foldlM_cons, appendField_of_isString hall.1]
    simpa [bind, Except.bind] using ih hall.2 (result ++ field it.1 (text it.2))

/-- The loop throws at the first field that holds no string. -/
theorem foldlM_appendField_of_not_isString {fields : List (Bytes × Any)}
    (hex : ∃ it ∈ fields, ¬IsString it.2) (result : Bytes) :
    fields.foldlM appendField result = .error (.throw .badAnyCast) := by
  induction fields generalizing result with
  | nil => simp at hex
  | cons it fields ih =>
    rw [List.foldlM_cons]
    -- the loop stops at the first value that is no string
    by_cases hit : IsString it.2
    · rw [appendField_of_isString hit]
      refine ih ?_ _
      simpa [hit] using hex
    · rw [appendField_of_not_isString hit]
      rfl

/-- A header whose values are strings is written out field by field. -/
theorem toString_of_allStrings {h : Header} (hall : h.AllStrings) :
    h.toString = .ok (h.fields.flatMap fun it => field it.1 (text it.2)) := by
  rw [toString, foldlM_appendField_of_isString ((allStrings_iff h).mp hall), List.nil_append]

/-- A value that is no string makes writing out fail. -/
theorem toString_of_not_allStrings {h : Header} (hall : ¬h.AllStrings) :
    h.toString = .error (.throw .badAnyCast) := by
  refine foldlM_appendField_of_not_isString ?_ []
  simpa [allStrings_iff] using hall

end Header

end Lhs.Http
