import LhsServer.Library.Calendar
import LhsServer.Library.Decimal
import LhsServer.Library.Percent
import LhsServer.Library.Regex
import LhsServer.Protocol.Http
import Mathlib.Data.List.DropRight

/-!
# What the server runs on

The parts of a run that are not the server's own code: the functions of the `mgz` utility library
(`Mgz`), the memory the program reads without having written it (`Memory`), and the two ways in
which a function can fail to return (`Fault`): an exception, or behaviour the language leaves
undefined.

Nothing is assumed about the functions of `Mgz` here; a result that relies on one states the
documented behaviour as a hypothesis on the field (`Mgz.SplitsPieces`, `Mgz.FormatsAsPrintf`, ...).
-/

namespace Lhs

open Bytes

/-! ## Faults -/

/-- The exceptions the server throws itself, and those of the standard library that can leave one
of its functions. -/
inductive Exn where
  | requestError (what : String)
  | serverError
  | staticFileError
  /-- `std::length_error` -/
  | lengthError
  /-- a failed `mgz::util::any_cast` -/
  | badAnyCast
  deriving DecidableEq, Repr

/-- The places where the code runs into undefined behaviour. -/
inductive Undefined where
  /-- `line[line.size() - 1]` on an empty line, where that access is trapped -/
  | stringIndex
  /-- `front()` on an empty deque -/
  | emptyDeque
  /-- a range whose first iterator lies behind its last -/
  | iteratorRange
  deriving DecidableEq, Repr

/-- Why a function does not return. -/
inductive Fault where
  | throw (e : Exn)
  | undefined (u : Undefined)
  deriving DecidableEq, Repr

/-- A computation of the server that asks nothing of the system. -/
abbrev Run := Except Fault

/-- A computation that gives a known part of a result has returned one. -/
theorem Run.exists_ok_of_map {α β : Type} {x : Run α} {f : α → β} {b : β}
    (h : x.map f = .ok b) : ∃ a, x = .ok a ∧ f a = b := by
  cases x with
  | error e => cases h
  | ok a => exact ⟨a, rfl, Except.ok.inj h⟩

/-! ## Memory -/

/-- `struct stat`, as far as the server looks at it. -/
structure Stat where
  stMode : ℕ
  stSize : ℤ
  stMtime : ℤ
  deriving DecidableEq, Repr

/-- What the program finds in memory where it reads something it has not written. -/
structure Memory where
  /-- The byte `line[line.size() - 1]` reads when `line` is empty and the index wraps around;
  `none` where the access is trapped. -/
  lineBack : Option UInt8
  /-- The field `code` of a default-constructed response. -/
  code : ℤ
  /-- The field `version` of a default-constructed response. -/
  version : Http.Version
  /-- The local `struct stat` of the pass over the entry with this file name, as long as no call has
  filled it in: what an earlier pass has left there, or anything else. -/
  status : Bytes → Stat
  /-- The buffer of `gmtime` when `strftime` reads it for the entry with this file name, if another
  thread has filled it in between: all threads share this buffer. -/
  tm : Bytes → Option Calendar.DateTime

/-- The memory with another value in the field `code` of a default-constructed response. -/
def Memory.withCode (mem : Memory) (code : ℤ) : Memory := { mem with code }

/-- The memory of a thread with whose dates no other thread interferes. -/
def Memory.alone (mem : Memory) : Memory := { mem with tm := fun _ => none }

/-! ## The mgz library -/

/-- One argument of `mgz::util::format`. -/
inductive FormatArg where
  /-- a C string, for `%s` -/
  | s (c_str : Bytes)
  /-- an integer, for `%d` -/
  | d (n : ℤ)
  /-- the double `((float)st_size)/1024.0`, for `%.1f` -/
  | kilobytes (stSize : ℤ)
  deriving DecidableEq, Repr

/-- What `printf` makes of a format with `%s` and `%d`. -/
def printf : Bytes → List FormatArg → Bytes
  | 37 :: 115 :: fmt, .s c_str :: args => c_str ++ printf fmt args
  | 37 :: 100 :: fmt, .d n :: args => decimal n ++ printf fmt args
  | 37 :: 37 :: fmt, args => 37 :: printf fmt args
  | c :: fmt, args => c :: printf fmt args
  | [], _ => []

/-- Text without a `%` stands for itself. -/
theorem printf_append {text : Bytes} (h : 37 ∉ text) (fmt : Bytes) (args : List FormatArg) :
    printf (text ++ fmt) args = text ++ printf fmt args := by
  induction text with
  | nil => rfl
  | cons c text ih =>
    obtain ⟨hc, htext⟩ := not_or.mp (mt List.mem_cons.mpr h)
    rw [List.cons_append, printf, ih htext, List.cons_append]
    -- the other equations are for formats that start with a `%`
    all_goals
      intros
      exact absurd (Eq.symm ‹c = 37›) hc

/-- A format without `%` is its own text. -/
theorem printf_of_not_mem {text : Bytes} (h : 37 ∉ text) (args : List FormatArg) :
    printf text args = text := by
  have happend := printf_append h [] args
  rwa [List.append_nil, printf, List.append_nil] at happend

/-- The argument of a `%s`. -/
theorem printf_append_s {text : Bytes} (h : 37 ∉ text) (fmt c_str : Bytes)
    (args : List FormatArg) :
    printf (text ++ 37 :: 115 :: fmt) (.s c_str :: args) = text ++ (c_str ++ printf fmt args) := by
  rw [printf_append h, printf]

/-- What `printf` makes of `%.1fk`: the number in decimal, rounded to one place behind the point. A
float holds it exactly where `stSize` is below 2^24. -/
def printfKilobytes (stSize : ℤ) : Bytes :=
  let tenths := 10 * stSize.natAbs / 1024
  let rest := 10 * stSize.natAbs % 1024
  -- the even neighbour, halfway between two
  let tenths := if 512 < rest ∨ (rest = 512 ∧ tenths % 2 = 1) then tenths + 1 else tenths
  (if stSize < 0 then str "-" else []) ++ digits (tenths / 10) ++ str "." ++
    digits (tenths % 10) ++ str "k"

/-- The functions of the `mgz` library that the server calls. -/
structure Mgz where
  /-- `mgz::util::split` -/
  split : Bytes → UInt8 → List Bytes
  /-- `mgz::util::trim` -/
  trim : Bytes → Bytes
  /-- `mgz::util::format` -/
  format : Bytes → List FormatArg → Bytes
  /-- `mgz::util::convert<size_t, std::string>` -/
  convert : ℕ → Bytes
  /-- `mgz::util::replace_all` -/
  replaceAll : Bytes → Bytes → Bytes → Bytes
  /-- `mgz::util::datetime::now().to_http()`, the text of the one call a run makes -/
  nowToHttp : Bytes
  /-- `mgz::net::uri::decode` -/
  decode : Bytes → Bytes
  /-- `mgz::net::mime_type(ext)[0].name` -/
  mimeType : Bytes → Bytes
  /-- `mgz::regex::RE::quote` -/
  quote : Bytes → Bytes
  /-- `mgz::regex::RE(pattern).find(subject)`: the captured groups of a match -/
  find : Bytes → Bytes → Option (List Bytes)

/-- `split` returns in order the pieces between consecutive delimiters. -/
def Mgz.SplitsPieces (mgz : Mgz) : Prop := ∀ s c, mgz.split s c = s.splitOn c

/-- `format` behaves as `printf` where every argument is a string or an integer. -/
def Mgz.FormatsAsPrintf (mgz : Mgz) : Prop :=
  ∀ fmt args, (∀ arg ∈ args, ∀ n, arg ≠ .kilobytes n) → mgz.format fmt args = printf fmt args

/-- `format` writes a size with digits, a sign and a point. -/
def Mgz.FormatsKilobytes (mgz : Mgz) : Prop :=
  ∀ n, ∀ c ∈ mgz.format (str "%.1fk") [.kilobytes n],
    c = 45 ∨ c = dot ∨ (48 ≤ c.toNat ∧ c.toNat ≤ 57) ∨ c = 107

/-- `convert<size_t, std::string>` gives the decimal representation. -/
def Mgz.ConvertsToDecimal (mgz : Mgz) : Prop := ∀ n : ℕ, mgz.convert n = decimal n

/-- `to_http` gives a date on one line. -/
def Mgz.DatesOnOneLine (mgz : Mgz) : Prop := CR ∉ mgz.nowToHttp ∧ LF ∉ mgz.nowToHttp

instance (mgz : Mgz) : Decidable mgz.DatesOnOneLine := inferInstanceAs (Decidable (_ ∧ _))

/-- The name of a MIME type stands on one line. -/
def Mgz.NamesOnOneLine (mgz : Mgz) : Prop := ∀ ext, CR ∉ mgz.mimeType ext ∧ LF ∉ mgz.mimeType ext

/-- `isspace`. -/
def isSpace (c : UInt8) : Bool := c = SP || (9 ≤ c && c ≤ 13)

/-- `trim` removes leading and trailing whitespace only. -/
def Mgz.TrimsWhitespace (mgz : Mgz) : Prop :=
  ∀ s, mgz.trim s = (s.dropWhile isSpace).rdropWhile isSpace

/-- `decode` undoes the percent-encoding `encode`, which leaves none of the characters in a text
that delimit the parts of a request. -/
structure Mgz.UndoesEncoding (mgz : Mgz) (encode : Bytes → Bytes) : Prop where
  decode_encode : ∀ s, mgz.decode (encode s) = s
  plain : ∀ s, ∀ c ∈ encode s, c ∉ [SP, amp, equals, question, CR, LF]

/-- `RE(pattern).find` finds the matches of a pattern; `any` are the characters that `.` matches. -/
def Mgz.SearchesRegex (mgz : Mgz) (any : UInt8 → Bool) : Prop :=
  ∀ pattern r, Regex.parse any pattern = some r → ∀ s, (mgz.find pattern s).isSome ↔ r.Occurs s

/-- `RE(pattern).find` finds the first match of a pattern, in which every repetition takes as much
as it can, and gives its groups. -/
def Mgz.FindsGroups (mgz : Mgz) (any : UInt8 → Bool) : Prop :=
  ∀ pattern r, Regex.parse any pattern = some r → ∀ s, mgz.find pattern s = r.search s

/-- What finds the groups of a match finds the match. -/
theorem Mgz.FindsGroups.searchesRegex {mgz : Mgz} {any : UInt8 → Bool} (h : mgz.FindsGroups any) :
    mgz.SearchesRegex any := fun pattern r hparse s => by
  rw [h pattern r hparse s, Regex.search_isSome_iff]

/-- `RE::quote` escapes a text character by character. -/
def Mgz.QuotesLiterally (mgz : Mgz) : Prop :=
  ∃ spelling : UInt8 → Bytes, (∀ c, Regex.Spells (spelling c) c) ∧
    ∀ s, mgz.quote s = s.flatMap spelling

/-- `replace_all` replaces every occurrence of a character. -/
def Mgz.ReplacesAll (mgz : Mgz) : Prop :=
  ∀ s c new, mgz.replaceAll s [c] new = s.flatMap fun d => if d = c then new else [d]

/-! ## Instances -/

/-- An instance of the library on plain text: it splits, trims and formats as documented, finds
nothing to decode or to quote, and matches no pattern. -/
def Mgz.plain : Mgz where
  split s c := s.splitOn c
  trim s := ((s.dropWhile isSpace).reverse.dropWhile isSpace).reverse
  format := printf
  convert n := decimal n
  replaceAll s old new := s.flatMap fun c => if [c] = old then new else [c]
  nowToHttp := str "Sun, 06 Nov 1994 08:49:37 GMT"
  decode s := s
  mimeType ext :=
    if ext = str "html" then str "text/html"
    else if ext = str "txt" then str "text/plain"
    else str "application/octet-stream"
  quote s := s
  find _ _ := none

/-- Memory that holds zeros, of a regular file in a `struct stat`. -/
def Memory.zero : Memory :=
  { lineBack := some NUL, code := 0, version := .httpUnknow, status := fun _ => ⟨0o100644, 0, 0⟩
    tm := fun _ => none }

theorem Mgz.plain_splitsPieces : Mgz.plain.SplitsPieces := fun _ _ => rfl

theorem Mgz.plain_formatsAsPrintf : Mgz.plain.FormatsAsPrintf := fun _ _ _ => rfl

theorem Mgz.plain_convertsToDecimal : Mgz.plain.ConvertsToDecimal := fun _ => rfl

theorem Mgz.plain_datesOnOneLine : Mgz.plain.DatesOnOneLine := by decide

/-- The mime types of the plain library have no end of line in them. -/
theorem Mgz.plain_namesOnOneLine : Mgz.plain.NamesOnOneLine := by
  intro ext
  simp only [Mgz.plain]
  split
  · decide
  · split <;> decide

theorem Mgz.plain_trimsWhitespace : Mgz.plain.TrimsWhitespace := fun _ => rfl

/-- The instance with sizes. -/
def Mgz.sizing : Mgz :=
  { Mgz.plain with
    format := fun fmt args =>
      match args with
      | [.kilobytes n] => if fmt = str "%.1fk" then printfKilobytes n else printf fmt args
      | _ => printf fmt args }

/-- A library that writes sizes too still formats everything else as `printf` does. -/
theorem Mgz.sizing_formatsAsPrintf : Mgz.sizing.FormatsAsPrintf := by
  intro fmt args hargs
  simp only [Mgz.sizing]
  split
  · exact absurd rfl (hargs _ (List.mem_singleton_self _) _)
  · rfl

/-- Its sizes are a number and a unit. -/
theorem Mgz.sizing_formatsKilobytes : Mgz.sizing.FormatsKilobytes := by
  intro n c hc
  have hformat : Mgz.sizing.format (str "%.1fk") [.kilobytes n] = printfKilobytes n := by
    simp [Mgz.sizing]
  have hstr : str "-" = [45] ∧ str "." = [dot] ∧ str "k" = [107] := by decide
  rw [hformat] at hc
  simp only [printfKilobytes, hstr.1, hstr.2.1, hstr.2.2, List.mem_append, List.mem_singleton,
    List.mem_ite_nil_right] at hc
  rcases hc with (((⟨-, hc⟩ | hc) | hc) | hc) | hc
  · exact .inl hc
  · exact .inr (.inr (.inl (mem_digits hc)))
  · exact .inr (.inl hc)
  · exact .inr (.inr (.inl (mem_digits hc)))
  · exact .inr (.inr (.inr hc))

/-- The instance with percent-decoding. -/
def Mgz.decoding : Mgz := { Mgz.plain with decode := Percent.decode }

/-- Percent-decoding undoes percent-encoding. -/
theorem Mgz.decoding_undoesEncoding : Mgz.decoding.UndoesEncoding Percent.encode where
  decode_encode := Percent.decode_encode
  plain s c hc := by
    have hreserved : ∀ d ∈ [SP, amp, equals, question, CR, LF],
        Percent.unreserved d = false ∧ d ≠ Percent.percent := by decide +kernel
    intro hd
    rcases Percent.mem_encode hc with h | h
    · rw [(hreserved c hd).1] at h
      cases h
    · exact (hreserved c hd).2 h

/-- The instance with regular expressions. -/
def Mgz.regex : Mgz :=
  { Mgz.plain with
    quote := Regex.quote
    find := fun pattern s => (Regex.parse (· != LF) pattern).bind fun r => r.search s }

/-- The regular expressions of `Library.Regex` find groups. -/
theorem Mgz.regex_findsGroups : Mgz.regex.FindsGroups (· != LF) := fun pattern r hparse s => by
  simp [Mgz.regex, hparse]

/-- They are searched for from left to right. -/
theorem Mgz.regex_searchesRegex : Mgz.regex.SearchesRegex (· != LF) :=
  Mgz.regex_findsGroups.searchesRegex

/-- A quoted text is found literally. -/
theorem Mgz.regex_quotesLiterally : Mgz.regex.QuotesLiterally :=
  ⟨Regex.quoteChar, Regex.quoteChar_spells, fun _ => rfl⟩

/-- Every occurrence of a character is replaced. -/
theorem Mgz.regex_replacesAll : Mgz.regex.ReplacesAll := fun s c new => by
  simp [Mgz.regex, Mgz.plain]

end Lhs
