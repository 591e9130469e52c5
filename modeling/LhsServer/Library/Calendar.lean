import LhsServer.Library.Decimal

/-!
# Dates

The civil date of a number of seconds since 1970-01-01 00:00 UTC in the Gregorian calendar, and
its text in the format `%d-%b-%Y %H:%M` of `strftime`. Years are counted from March, so that the
leap day is the last of its year.

- `mem_strftime`: the characters of such a text.
-/

namespace Calendar

open Bytes

/-- A day of the Gregorian calendar and a time on it. -/
structure DateTime where
  year : ℤ
  month : ℤ
  day : ℤ
  hour : ℤ
  minute : ℤ
  deriving DecidableEq, Repr

/-- `gmtime` of a number of seconds. The C function returns a null pointer where the year does not
fit an `int`, which `strftime` must not be given: this function is for the time stamps before. -/
def gmtime (seconds : ℤ) : DateTime :=
  -- days since 0000-03-01, in eras of 400 years
  let z := seconds / 86400 + 719468
  let era := z / 146097
  let dayOfEra := z % 146097
  let yearOfEra :=
    (dayOfEra - dayOfEra / 1460 + dayOfEra / 36524 - dayOfEra / 146096) / 365
  let dayOfYear := dayOfEra - (365 * yearOfEra + yearOfEra / 4 - yearOfEra / 100)
  let marchMonth := (5 * dayOfYear + 2) / 153
  let month := if marchMonth < 10 then marchMonth + 3 else marchMonth - 9
  { year := yearOfEra + era * 400 + (if month ≤ 2 then 1 else 0)
    month
    day := dayOfYear - (153 * marchMonth + 2) / 5 + 1
    hour := seconds % 86400 / 3600
    minute := seconds % 3600 / 60 }

/-- The abbreviated name of a month. -/
def monthName (month : ℤ) : Bytes :=
  ([str "Jan", str "Feb", str "Mar", str "Apr", str "May", str "Jun", str "Jul", str "Aug",
    str "Sep", str "Oct", str "Nov", str "Dec"].getD (month.toNat - 1) [])

/-- A number below 100 in two digits. -/
def twoDigits (n : ℤ) : Bytes := decimal (n / 10) ++ decimal (n % 10)

/-- `strftime` with the format `%d-%b-%Y %H:%M`. -/
def strftime (t : DateTime) : Bytes :=
  twoDigits t.day ++ str "-" ++ monthName t.month ++ str "-" ++ decimal t.year ++ str " " ++
    twoDigits t.hour ++ str ":" ++ twoDigits t.minute

/-- The name of a month is made of letters. -/
theorem mem_monthName {month : ℤ} {c : UInt8} (h : c ∈ monthName month) : 65 ≤ c.toNat := by
  have hletters : ∀ name ∈ [str "Jan", str "Feb", str "Mar", str "Apr", str "May", str "Jun",
      str "Jul", str "Aug", str "Sep", str "Oct", str "Nov", str "Dec"], ∀ c ∈ name,
      65 ≤ c.toNat := by decide +kernel
  rw [monthName, List.getD_eq_getElem?_getD] at h
  rcases hname : (_ : List Bytes)[month.toNat - 1]? with _ | name
  · rw [hname] at h
    cases h
  · rw [hname] at h
    exact hletters name (List.mem_of_getElem? hname) c h

/-- The text of a date is made of letters, digits, and the characters between them. -/
theorem mem_strftime {t : DateTime} {c : UInt8} (h : c ∈ strftime t) :
    c = SP ∨ c = 45 ∨ c = colon ∨ (48 ≤ c.toNat ∧ c.toNat ≤ 57) ∨ 65 ≤ c.toNat := by
  have hstr : str "-" = [45] ∧ str " " = [SP] ∧ str ":" = [colon] := by decide
  simp only [strftime, twoDigits, hstr.1, hstr.2.1, hstr.2.2, List.mem_append,
    List.mem_singleton] at h
  have hdecimal : ∀ n : ℤ, c ∈ decimal n → c = 45 ∨ (48 ≤ c.toNat ∧ c.toNat ≤ 57) :=
    fun _ => mem_decimal
  have hmonth : c ∈ monthName t.month → 65 ≤ c.toNat := mem_monthName
  grind

example : gmtime 951782400 = ⟨2000, 2, 29, 0, 0⟩ := by decide

example : strftime (gmtime 1330521240) = str "29-Feb-2012 13:14" := by decide

end Calendar
