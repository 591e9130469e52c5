import LhsServer.Correctness.Links
import LhsServer.Correctness.RoundTrip
import LhsServer.Server.AccessLog
import Mathlib.Data.Nat.Digits.Defs

/-!
# Reading the access log

A reader for what the program inserts in `std::cerr`, and what it reads there: one item for each
complete line, in order, whatever the requests were made of, unless one thread inserts its line
inside that of another one.

- `LogItem`, `readItem`: the items, and the reader of one line;
- `readEntry_accessText`: the parts of the line of a request are told apart;
- `readLog_append`: complete lines are read back;
- `CerrInv`, `Cerr.Ordered`: what the statements keep in any order, and when none of them inserts
  inside the line of another one;
- `readLog_of_reachable`: what is read in every state of the stream.
-/

namespace Lhs.Server

open Bytes Http Request Framing

/-! ## The reader -/

/-- What a line of the log says. -/
structure LogEntry where
  address : List ℕ
  port : ℤ
  date : Bytes
  method : Bytes
  uri : Bytes
  version : Bytes
  deriving DecidableEq

/-- `a.b.c.d` -/
def readAddress (s : Bytes) : List ℕ := (s.splitOn dot).map readDigits

/-- `address:port [date] - - method uri version` -/
def readEntry (line : Bytes) : Option LogEntry := do
  let (address, line) ← cut colon line
  let (port, line) ← cut SP line
  -- the date stands between brackets, and six characters between it and the method
  let (date, line) ← cut 93 line
  let (method, line) ← cut SP (line.drop 5)
  let (uri, version) ← cut SP line
  return {
    address := readAddress address, port := readDecimal port, date := date.drop 1, method, uri,
    version }

/-- An item of the log. -/
inductive LogItem where
  | reset
  | access (entry : LogEntry)
  | error (what : Bytes)
  deriving DecidableEq

/-- A line of the log. -/
def readItem (line : Bytes) : Option LogItem :=
  if line = str "Connexion reset by peer!" then some .reset
  else if str "Error: " <+: line then some (.error (line.drop 7))
  else (readEntry line).map .access

/-- The items of the complete lines of a log. -/
def readLog (log : Bytes) : Option (List LogItem) := (log.splitOn LF).dropLast.mapM readItem

/-! ## The address of the client -/

/-- What is no digit is not among them. -/
theorem not_mem_digits {c : UInt8} (hc : c.toNat < 48 ∨ 57 < c.toNat) (n : ℕ) : c ∉ digits n :=
  fun h => by
    have hdigit := mem_digits h
    omega

/-- A byte has at most three digits. -/
theorem length_digits_le (b : UInt8) : (digits b.toNat).length ≤ 3 := by
  rw [digits, List.length_map]
  exact Nat.toDigits_length 10 _ 3 (by decide) (b.toNat_lt.trans (by decide))

/-- The text of an address and its NUL fit in the array of a `peer`. -/
theorem length_inetNtoa_lt (addr : InAddr) : (inetNtoa addr).length < inet6AddrStrLen := by
  obtain ⟨a, b, c, d⟩ := addr
  have ha := length_digits_le a
  have hb := length_digits_le b
  have hc := length_digits_le c
  have hd := length_digits_le d
  simp only [inetNtoa, List.length_append, List.length_cons, inet6AddrStrLen]
  omega

/-- The array of a `peer` is filled up. -/
theorem length_ip_getpeer (client : SockaddrIn) :
    (getpeer client).ip.length = inet6AddrStrLen := by
  have hlt := length_inetNtoa_lt client.sinAddr
  simp only [getpeer, List.length_append, List.length_replicate]
  omega

/-- An address is made of digits and dots. -/
theorem not_mem_inetNtoa {c : UInt8} (hdot : c ≠ dot) (hc : c.toNat < 48 ∨ 57 < c.toNat)
    (addr : InAddr) : c ∉ inetNtoa addr := by
  simp only [inetNtoa, List.mem_append, List.mem_cons, not_or]
  exact ⟨not_mem_digits hc _, hdot, not_mem_digits hc _, hdot, not_mem_digits hc _, hdot,
    not_mem_digits hc _⟩

/-- Up to its first NUL, the array has the text of the address. -/
theorem cstr_ip_getpeer (client : SockaddrIn) :
    cstr (getpeer client).ip = inetNtoa client.sinAddr := by
  have hnul : NUL ∉ inetNtoa client.sinAddr := not_mem_inetNtoa (by decide) (by decide) _
  rw [getpeer, cstr_append_of_nul_not_mem hnul]
  cases inet6AddrStrLen - (inetNtoa client.sinAddr).length <;> simp [cstr, List.replicate_succ]

/-- An address is read back. -/
theorem readAddress_inetNtoa (a b c d : UInt8) :
    readAddress (inetNtoa (a, b, c, d)) = [a.toNat, b.toNat, c.toNat, d.toNat] := by
  have hdot : ∀ n, dot ∉ digits n := not_mem_digits (by decide)
  rw [readAddress, inetNtoa, List.splitOn_append_cons_self_of_not_mem (hdot _),
    List.splitOn_append_cons_self_of_not_mem (hdot _),
    List.splitOn_append_cons_self_of_not_mem (hdot _), List.splitOn_eq_singleton (hdot _)]
  simp [readDigits_digits]

/-! ## One line -/

namespace Report

/-- A report that can be read: its request was accepted, and the text of the date has no bracket and
no end of line in it; the text of an exception has no end of line, either. -/
def Readable (mgz : Mgz) : Report → Prop
  | .reset => True
  | .access now _ request =>
    (∃ mem data, parse mgz mem data = .ok request) ∧ 93 ∉ now ∧ LF ∉ now
  | .error what => LF ∉ what

/-- What its line is to say. The target ends at its first NUL, as every C string does. -/
def item : Report → LogItem
  | .reset => .reset
  | .access now ⟨port, a, b, c, d⟩ request =>
    .access
      { address := [a.toNat, b.toNat, c.toNat, d.toNat]
        port := ntohs port
        date := cstr now
        method := getHttpMethodName request.method
        uri := cstr request.uri
        version := getHttpVersionName request.version }
  | .error what => .error what

end Report

/-- The target of an accepted request ends at the next space, and the line goes on behind it. -/
theorem uri_plain {mgz : Mgz} (hsplit : mgz.SplitsPieces) {mem : Memory} {data : Bytes}
    {request : Request} (hparse : parse mgz mem data = .ok request) :
    SP ∉ cstr request.uri ∧ LF ∉ cstr request.uri := by
  have hmem : ∀ c ∈ cstr request.uri, c ≠ SP ∧ c ≠ LF := fun c hc =>
    (mem_uri hsplit hparse ((cstr_isPrefixOf _).mem hc)).2
  exact ⟨fun h => (hmem _ h).1 rfl, fun h => (hmem _ h).2 rfl⟩

section Line

variable {mgz : Mgz} (hformat : mgz.FormatsAsPrintf)

include hformat

/-- The text of a request: its address, port and date, and its request line. -/
theorem accessText_eq (now : Bytes) (client : SockaddrIn) (request : Request) :
    accessText mgz now (getpeer client) request =
      inetNtoa client.sinAddr ++ colon :: (decimal (ntohs client.sinPort) ++ SP ::
        (91 :: cstr now ++ 93 :: (str " - - " ++ (getHttpMethodName request.method ++ SP ::
          (cstr request.uri ++ SP :: getHttpVersionName request.version))))) := by
  have hmethod : NUL ∉ getHttpMethodName request.method := by
    cases request.method <;> decide
  rw [accessText, hformat _ _ (by simp), cstr_ip_getpeer, cstr_of_nul_not_mem hmethod,
    cstr_of_nul_not_mem (versionName_plain request.version).2.2]
  simp [printf, str, getpeer, colon, SP]

/-- The line of a request begins with a digit, as no other line does. -/
theorem exists_accessText (now : Bytes) (client : SockaddrIn) (request : Request) :
    ∃ (c : UInt8) (rest : Bytes), accessText mgz now (getpeer client) request = c :: rest ∧
      c.toNat ≤ 57 := by
  obtain ⟨port, a, b, c, d⟩ := client
  rw [accessText_eq hformat]
  rcases hdigits : digits a.toNat with _ | ⟨digit, rest⟩
  · exact absurd hdigits (digits_ne_nil _)
  · refine ⟨digit, _, by rw [inetNtoa, hdigits]; rfl, (mem_digits (n := a.toNat) ?_).2⟩
    rw [hdigits]
    exact List.mem_cons_self

variable (hsplit : mgz.SplitsPieces) {now : Bytes} {mem : Memory} {data : Bytes} {request : Request}
  (hparse : parse mgz mem data = .ok request) (client : SockaddrIn)

include hsplit hparse

/-- The text of a request has no end of line in it. -/
theorem lf_not_mem_accessText (hnow : LF ∉ now) :
    LF ∉ accessText mgz now (getpeer client) request := by
  have haddr : LF ∉ inetNtoa client.sinAddr := not_mem_inetNtoa (by decide) (by decide) _
  have hdate : LF ∉ cstr now := fun h => hnow ((cstr_isPrefixOf _).mem h)
  have hversion : LF ∉ getHttpVersionName request.version := by
    cases request.version <;> decide
  have hframe : LF ∉ str " - - " := by decide
  rw [accessText_eq hformat]
  simp only [List.mem_append, List.mem_cons, not_or]
  exact ⟨haddr, by decide, (decimal_plain _).2.2, by decide, ⟨by decide, hdate⟩, by decide, hframe,
    (methodName_plain _).2.2, by decide, (uri_plain hsplit hparse).2, by decide, hversion⟩

/-- The parts of the text are told apart, whatever the target is. -/
theorem readEntry_accessText (hnow : 93 ∉ now) :
    (readEntry (accessText mgz now (getpeer client) request)).map .access =
      some (Report.access now client request).item := by
  have haddr : colon ∉ inetNtoa client.sinAddr := not_mem_inetNtoa (by decide) (by decide) _
  have hdate : 93 ∉ 91 :: cstr now := List.not_mem_cons_of_ne_of_not_mem (by decide)
    fun h => hnow ((cstr_isPrefixOf _).mem h)
  have hframe : ∀ t, (str " - - " ++ t).drop 5 = t := fun _ => rfl
  rw [accessText_eq hformat, readEntry]
  simp only [cut_append haddr, cut_append (decimal_plain _).1, cut_append hdate, hframe,
    cut_append (methodName_plain _).1, cut_append (uri_plain hsplit hparse).1,
    Option.bind_eq_bind, Option.bind_some]
  rw [readDecimal_decimal]
  obtain ⟨port, a, b, c, d⟩ := client
  rw [readAddress_inetNtoa]
  rfl

end Line

section Report

variable {mgz : Mgz} (hformat : mgz.FormatsAsPrintf) (hsplit : mgz.SplitsPieces)
  {report : Report} (hreport : report.Readable mgz)

include hformat hsplit hreport

/-- No report can end its line early. -/
theorem lf_not_mem_text : LF ∉ report.text mgz := by
  cases report with
  | reset =>
    rw [Report.text]
    decide
  | access now client request =>
    obtain ⟨⟨mem, data, hparse⟩, -, hnow⟩ := hreport
    exact lf_not_mem_accessText hformat hsplit hparse client hnow
  | error what =>
    rw [Report.text, List.mem_append, not_or]
    exact ⟨by decide, hreport⟩

/-- Every line says what it is to say. -/
theorem readItem_text : readItem (report.text mgz) = some report.item := by
  cases report with
  | reset => rfl
  | access now client request =>
    obtain ⟨⟨mem, data, hparse⟩, hnow, -⟩ := hreport
    obtain ⟨c, rest, htext, hc⟩ := exists_accessText hformat now client request
    have hreset : accessText mgz now (getpeer client) request ≠ str "Connexion reset by peer!" := by
      rw [htext]
      rintro heq
      rw [(List.cons.inj heq).1] at hc
      exact absurd hc (by decide)
    have herror : ¬str "Error: " <+: accessText mgz now (getpeer client) request := by
      rw [htext]
      intro hprefix
      rw [← (List.cons_prefix_cons.mp hprefix).1] at hc
      exact absurd hc (by decide)
    rw [Report.text, readItem, if_neg hreset, if_neg herror,
      readEntry_accessText hformat hsplit hparse client hnow]
  | error what =>
    have hprefix : str "Error: " <+: str "Error: " ++ what := List.prefix_append _ _
    have hne : str "Error: " ++ what ≠ str "Connexion reset by peer!" := by
      intro heq
      exact absurd (List.cons.inj heq).1 (by decide)
    rw [Report.text, readItem, if_neg hne, if_pos hprefix]
    rfl

end Report

/-! ## Complete lines -/

section Log

variable {mgz : Mgz} (hformat : mgz.FormatsAsPrintf) (hsplit : mgz.SplitsPieces)

include hformat hsplit

/-- Each line has one end. -/
theorem count_lines {reports : List Report} (hreports : ∀ r ∈ reports, r.Readable mgz) :
    (reports.flatMap (Report.line mgz)).count LF = reports.length := by
  induction reports with
  | nil => rfl
  | cons report reports ih =>
    have htext := List.count_eq_zero.mpr
      (lf_not_mem_text hformat hsplit (hreports report List.mem_cons_self))
    rw [List.flatMap_cons, List.count_append, ih fun r hr => hreports r (List.mem_cons_of_mem _ hr),
      Report.line, List.count_append, htext]
    simp [Nat.add_comm]

/-- Complete lines are read back, whatever has been inserted of the next one. -/
theorem readLog_append {reports : List Report} (hreports : ∀ r ∈ reports, r.Readable mgz)
    {part : Bytes} (hpart : LF ∉ part) :
    readLog (reports.flatMap (Report.line mgz) ++ part) = some (reports.map Report.item) := by
  induction reports with
  | nil =>
    rw [List.flatMap_nil, List.nil_append, readLog, List.splitOn_eq_singleton hpart]
    rfl
  | cons report reports ih =>
    have hreport := hreports report List.mem_cons_self
    have htext := lf_not_mem_text hformat hsplit hreport
    have hrest := ih fun r hr => hreports r (List.mem_cons_of_mem _ hr)
    have hline : (report :: reports).flatMap (Report.line mgz) ++ part =
        report.text mgz ++ LF :: (reports.flatMap (Report.line mgz) ++ part) := by
      simp [Report.line]
    rw [hline, readLog, List.splitOn_append_cons_self_of_not_mem htext,
      List.dropLast_cons_of_ne_nil (List.splitOn_ne_nil _ _), List.mapM_cons,
      readItem_text hformat hsplit hreport]
    rw [readLog] at hrest
    rw [hrest]
    rfl

end Log

/-! ## The stream -/

/-- All characters of the line have been inserted. -/
def Insertion.Complete (mgz : Mgz) (w : Insertion) : Prop :=
  w.inserted = (w.report.line mgz).length

instance (mgz : Mgz) (w : Insertion) : Decidable (w.Complete mgz) :=
  inferInstanceAs (Decidable (_ = _))

/-- What has been inserted of a line that is not complete. -/
def Insertion.part (mgz : Mgz) (w : Insertion) : Bytes :=
  if w.Complete mgz then [] else (w.report.line mgz).take w.inserted

/-- The condition on a step: only readable reports are inserted. -/
def Cerr.Readable (mgz : Mgz) : CerrLabel → Prop
  | .start report => report.Readable mgz
  | .put _ => True

/-- The condition on a step: no statement inserts a character inside the line of another one. -/
def Cerr.Alone (mgz : Mgz) (s : Cerr) : CerrLabel → Prop
  | .start _ => True
  | .put i => ∀ w ∈ s.insertions.eraseIdx i, w.inserted = 0 ∨ w.Complete mgz

section Cerr

variable {mgz : Mgz} {s s' : Cerr}

/-- Of a line that has not begun or is complete there is no part. -/
theorem Insertion.part_of_idle {w : Insertion} (h : w.inserted = 0 ∨ w.Complete mgz) :
    w.part mgz = [] := by
  rw [part]
  split
  · rfl
  · next hnot => rw [h.resolve_right hnot, List.take_zero]

/-- Everything a step can do: a statement begins, or one of them inserts its next character. -/
theorem Cerr.next_cases {l : CerrLabel} (h : s.next mgz l = some s') :
    (∃ report, l = .start report ∧ s' = { s with insertions := s.insertions ++ [⟨report, 0⟩] }) ∨
    ∃ i w c before after, l = .put i ∧ s.insertions[i]? = some w ∧
      (w.report.line mgz)[w.inserted]? = some c ∧ s.insertions = before ++ w :: after ∧
      before.length = i ∧
      s' = {
        stream := s.stream ++ [c]
        insertions := before ++ { w with inserted := w.inserted + 1 } :: after
        complete := if w.inserted + 1 = (w.report.line mgz).length then s.complete ++ [w.report]
          else s.complete } := by
  cases l with
  | start report => exact .inl ⟨report, rfl, (Option.some.inj h).symm⟩
  | put i =>
    simp only [next] at h
    split at h
    · next w hw =>
      obtain ⟨c, hc, rfl⟩ := Option.map_eq_some_iff.mp h
      obtain ⟨hi, rfl⟩ := List.getElem?_eq_some_iff.mp hw
      obtain ⟨before, after, hsplit, hlength, hset⟩ : ∃ before after,
          s.insertions = before ++ s.insertions[i] :: after ∧ before.length = i ∧
          s.insertions.set i { s.insertions[i] with inserted := s.insertions[i].inserted + 1 } =
            before ++ { s.insertions[i] with inserted := s.insertions[i].inserted + 1 } :: after :=
        List.exists_of_set hi
      exact .inr ⟨i, _, c, before, after, rfl, hw, hc, hsplit, hlength, by rw [hset]⟩
    · cases h

/-- The end of line is the last character of a line. -/
theorem eq_lf_iff {report : Report} (htext : LF ∉ report.text mgz) {n : ℕ} {c : UInt8}
    (hc : (report.line mgz)[n]? = some c) : c = LF ↔ n + 1 = (report.line mgz).length := by
  rw [Report.line, List.getElem?_append] at hc
  rw [Report.line, List.length_append, List.length_singleton, Nat.add_right_cancel_iff]
  split at hc
  · next hn =>
    refine iff_of_false ?_ hn.ne
    rintro rfl
    exact htext (List.mem_of_getElem? hc)
  · next hn =>
    rw [List.getElem?_singleton, Option.ite_none_right_eq_some] at hc
    exact iff_of_true (Option.some.inj hc.2).symm (by omega)

/-- An element that passes a filter in the place of one that does not. -/
theorem perm_filter_of_split {α : Type} (q : α → Prop) [DecidablePred q] (before after : List α)
    {a b : α} (ha : ¬q a) (hb : q b) :
    ((before ++ b :: after).filter (q ·)).Perm (b :: (before ++ a :: after).filter (q ·)) := by
  simp only [List.filter_append, List.filter_cons, ha, hb, decide_false, decide_true,
    Bool.false_eq_true, if_false, if_true]
  exact List.perm_middle

/-- What every order of the insertions keeps: there is one end of line for each complete line, and
the complete lines are those of the statements that have ended. -/
structure CerrInv (mgz : Mgz) (s : Cerr) : Prop where
  readable : ∀ w ∈ s.insertions, w.report.Readable mgz
  complete : s.complete.Perm
    ((s.insertions.filter fun w => w.Complete mgz).map Insertion.report)
  count : s.stream.count LF = s.complete.length

/-- Every step keeps to it: the end of line comes last. -/
theorem CerrInv.next (hformat : mgz.FormatsAsPrintf) (hsplit : mgz.SplitsPieces)
    (hs : CerrInv mgz s) {l : CerrLabel} (h : s.next mgz l = some s')
    (hreadable : Cerr.Readable mgz l) : CerrInv mgz s' := by
  obtain ⟨report, rfl, rfl⟩ | ⟨i, w, c, before, after, rfl, hw, hc, hinsertions, -, rfl⟩ :=
    Cerr.next_cases h
  · refine ⟨fun w hw => ?_, ?_, hs.count⟩
    · rcases List.mem_append.mp hw with hw | hw
      · exact hs.readable w hw
      · rw [List.mem_singleton.mp hw]
        exact hreadable
    -- a line has at least its end
    · have hnot : ¬Insertion.Complete mgz ⟨report, 0⟩ := by
        simp [Insertion.Complete, Report.line]
      simpa [List.filter_append, hnot] using hs.complete
  · have hlf := eq_lf_iff (lf_not_mem_text hformat hsplit (hs.readable w (List.mem_of_getElem? hw)))
      hc
    have hlt := (List.getElem?_eq_some_iff.mp hc).1
    have hnot : ¬w.Complete mgz := hlt.ne
    have hcomplete := hs.complete
    rw [hinsertions] at hcomplete
    refine ⟨fun u hu => ?_, ?_, ?_⟩
    · rcases List.mem_append.mp hu with hu | hu
      · exact hs.readable u (hinsertions ▸ List.mem_append_left _ hu)
      · rcases List.mem_cons.mp hu with rfl | hu
        · exact hs.readable w (List.mem_of_getElem? hw)
        · exact hs.readable u (hinsertions ▸ by simp [hu])
    · by_cases hend : w.inserted + 1 = (w.report.line mgz).length
      · have hended : Insertion.Complete mgz { w with inserted := w.inserted + 1 } := hend
        have hgrown := (perm_filter_of_split (fun w : Insertion => w.Complete mgz) before after hnot
          hended).map Insertion.report
        rw [if_pos hend]
        exact (List.perm_append_singleton _ _).trans ((hcomplete.cons _).trans hgrown.symm)
      · have hopen : ¬Insertion.Complete mgz { w with inserted := w.inserted + 1 } := hend
        simpa [List.filter_append, List.filter_cons, hnot, hopen, hend] using hcomplete
    · rw [List.count_append, hs.count]
      by_cases hend : w.inserted + 1 = (w.report.line mgz).length
      · simp [hlf.mpr hend, if_pos hend]
      · have hne : c ≠ LF := fun heq => hend (hlf.mp heq)
        simp [if_neg hend, hne]

/-- The stream is made of the complete lines, in order, and of what has been inserted of the one
that is not complete. -/
def Cerr.Ordered (mgz : Mgz) (s : Cerr) : Prop :=
  s.stream = s.complete.flatMap (Report.line mgz) ++ s.insertions.flatMap (Insertion.part mgz)

/-- A step keeps the order when all other lines have not begun or are complete. -/
theorem Cerr.Ordered.next (hs : s.Ordered mgz) {l : CerrLabel} (h : s.next mgz l = some s')
    (halone : s.Alone mgz l) : s'.Ordered mgz := by
  obtain ⟨report, rfl, rfl⟩ | ⟨i, w, c, before, after, rfl, hw, hc, hinsertions, hi, rfl⟩ :=
    Cerr.next_cases h
  · have hpart : Insertion.part mgz ⟨report, 0⟩ = [] := Insertion.part_of_idle (.inl rfl)
    rw [Ordered, List.flatMap_append, List.flatMap_singleton, hpart, List.append_nil]
    exact hs
  -- the other statements have not begun, or have ended
  · have hidle : ∀ u ∈ before ++ after, Insertion.part mgz u = [] := by
      intro u hu
      refine Insertion.part_of_idle (halone u ?_)
      rwa [hinsertions, ← hi, List.eraseIdx_append_of_length_le (Nat.le_refl _), Nat.sub_self,
        List.eraseIdx_zero, List.tail_cons]
    have hbefore : before.flatMap (Insertion.part mgz) = [] :=
      List.flatMap_eq_nil_iff.mpr fun u hu => hidle u (List.mem_append_left _ hu)
    have hafter : after.flatMap (Insertion.part mgz) = [] :=
      List.flatMap_eq_nil_iff.mpr fun u hu => hidle u (List.mem_append_right _ hu)
    have hlt := (List.getElem?_eq_some_iff.mp hc).1
    have hnot : ¬w.Complete mgz := hlt.ne
    have hgrown : (w.report.line mgz).take (w.inserted + 1) =
        (w.report.line mgz).take w.inserted ++ [c] := by
      rw [List.take_add_one, hc, Option.toList_some]
    rw [Ordered, hinsertions, List.flatMap_append, List.flatMap_cons, hbefore, hafter,
      List.nil_append, List.append_nil, Insertion.part, if_neg hnot] at hs
    rw [Ordered, List.flatMap_append, List.flatMap_cons, hbefore, hafter, List.nil_append,
      List.append_nil, hs, List.append_assoc, ← hgrown]
    by_cases hend : w.inserted + 1 = (w.report.line mgz).length
    · have hended : Insertion.Complete mgz { w with inserted := w.inserted + 1 } := hend
      rw [if_pos hend, Insertion.part_of_idle (.inr hended), List.flatMap_append,
        List.flatMap_singleton, List.append_nil, hend, List.take_length]
    · have hopen : ¬Insertion.Complete mgz { w with inserted := w.inserted + 1 } := hend
      rw [if_neg hend, Insertion.part, if_neg hopen]

/-- However the characters of the statements are mixed, the stream has one end of line for each
statement that has ended, and no request, whatever its bytes are, can add one. When no statement
inserts inside the line of another one, each complete line is read back to what it is about. -/
theorem readLog_of_reachable (hformat : mgz.FormatsAsPrintf) (hsplit : mgz.SplitsPieces)
    (hs : ((cerr mgz).guard fun _ l => Cerr.Readable mgz l).Reachable s) :
    (s.complete.Perm ((s.insertions.filter fun w => w.Complete mgz).map Insertion.report) ∧
      s.stream.count LF = s.complete.length) ∧
    (((cerr mgz).guard fun s l => Cerr.Readable mgz l ∧ s.Alone mgz l).Reachable s →
      readLog s.stream = some (s.complete.map Report.item)) := by
  have hinv : ((cerr mgz).guard fun _ l => Cerr.Readable mgz l).Invariant (CerrInv mgz) := by
    refine ⟨?_, fun s l s' hs h => hs.next hformat hsplit h.1 h.2⟩
    rintro _ rfl
    exact ⟨by simp, .refl _, rfl⟩
  have horder : ((cerr mgz).guard fun s l => Cerr.Readable mgz l ∧ s.Alone mgz l).Invariant
      (Cerr.Ordered mgz) := by
    refine ⟨?_, fun s l s' hs h => hs.next h.1 h.2.2⟩
    rintro _ rfl
    rfl
  have hkept := hinv.reachable hs
  refine ⟨⟨hkept.complete, hkept.count⟩, fun hordered => ?_⟩
  have hstream : s.stream = _ := horder.reachable hordered
  have hreadable : ∀ r ∈ s.complete, r.Readable mgz := by
    intro r hr
    obtain ⟨w, hw, rfl⟩ := List.mem_map.mp (hkept.complete.mem_iff.mp hr)
    exact hkept.readable w (List.mem_of_mem_filter hw)
  -- the ends of line are all in the complete lines
  have hcount := hkept.count
  rw [hstream, List.count_append, count_lines hformat hsplit hreadable] at hcount
  have hpart : LF ∉ s.insertions.flatMap (Insertion.part mgz) :=
    List.count_eq_zero.mp (Nat.add_eq_left.mp hcount)
  rw [hstream, readLog_append hformat hsplit hreadable hpart]

/-- A statement can insert its whole line while no other one is under way. -/
theorem reachable_line
    (hs : ((cerr mgz).guard fun s l => Cerr.Readable mgz l ∧ s.Alone mgz l).Reachable s)
    (hidle : ∀ w ∈ s.insertions, w.inserted = 0 ∨ w.Complete mgz) {report : Report}
    (hreport : report.Readable mgz) :
    ((cerr mgz).guard fun s l => Cerr.Readable mgz l ∧ s.Alone mgz l).Reachable
      { stream := s.stream ++ report.line mgz
        insertions := s.insertions ++ [⟨report, (report.line mgz).length⟩]
        complete := s.complete ++ [report] } := by
  -- one character after the other, the last one included
  have hput {n : ℕ} (hn : n < (report.line mgz).length)
      (h : ((cerr mgz).guard fun s l => Cerr.Readable mgz l ∧ s.Alone mgz l).Reachable
        { stream := s.stream ++ (report.line mgz).take n
          insertions := s.insertions ++ [⟨report, n⟩]
          complete := s.complete }) :
      ((cerr mgz).guard fun s l => Cerr.Readable mgz l ∧ s.Alone mgz l).Reachable
        { stream := s.stream ++ (report.line mgz).take (n + 1)
          insertions := s.insertions ++ [⟨report, n + 1⟩]
          complete := if n + 1 = (report.line mgz).length then s.complete ++ [report]
            else s.complete } := by
    refine .step (l := .put s.insertions.length) h ⟨?_, trivial, ?_⟩
    · have hc := List.getElem?_eq_getElem hn
      simp only [cerr, TransitionSystem.ofNext, Cerr.next, List.getElem?_concat_length, hc,
        Option.map_some, List.set_append_right _ _ (Nat.le_refl _), Nat.sub_self,
        List.set_cons_zero, List.take_add_one, Option.toList_some, List.append_assoc]
    · simpa [Cerr.Alone, List.eraseIdx_append_of_length_le] using hidle
  have hall : ∀ n < (report.line mgz).length,
      ((cerr mgz).guard fun s l => Cerr.Readable mgz l ∧ s.Alone mgz l).Reachable
        { stream := s.stream ++ (report.line mgz).take n
          insertions := s.insertions ++ [⟨report, n⟩]
          complete := s.complete } := by
    intro n hn
    induction n with
    | zero =>
      rw [List.take_zero, List.append_nil]
      exact .step (l := .start report) hs ⟨rfl, hreport, trivial⟩
    | succ n ih =>
      have hgrown := hput (by omega) (ih (by omega))
      rwa [if_neg (by omega)] at hgrown
  obtain ⟨n, hlength⟩ : ∃ n, (report.line mgz).length = n + 1 := by simp [Report.line]
  have hline := hput (by omega) (hall n (by omega))
  rwa [if_pos hlength.symm, ← hlength, List.take_length] at hline

end Cerr

/-- A request for a target that looks like the end of a line and the start of the next, and a
connection that is reset. -/
theorem readLog_of_reachable_link : ∃ (request : Request) (s : Cerr),
    request.path = str "/]\r10.0.0.1:80" ∧
    s.complete = [.access Mgz.plain.nowToHttp ⟨(31, 144), 127, 0, 0, 1⟩ request, .reset] ∧
    (s.complete.Perm ((s.insertions.filter fun w => w.Complete .plain).map Insertion.report) ∧
      s.stream.count LF = s.complete.length) ∧
    readLog s.stream = some (s.complete.map Report.item) := by
  have hhead : (str "/]\r10.0.0.1:80").head? = some slash := by decide
  obtain ⟨request, hparse, hpath⟩ := Middleware.StaticFile.exists_parse_linkRequest
    Mgz.plain_splitsPieces .zero hhead (by decide)
  have haccess : Report.Readable .plain
      (.access Mgz.plain.nowToHttp ⟨(31, 144), 127, 0, 0, 1⟩ request) :=
    ⟨⟨.zero, _, hparse⟩, by decide, by decide⟩
  have hreset : Report.Readable .plain .reset := trivial
  have hfirst := reachable_line (.init rfl) (by simp) haccess
  have hboth := reachable_line hfirst (by simp [Insertion.Complete]) hreset
  have hread := readLog_of_reachable Mgz.plain_formatsAsPrintf Mgz.plain_splitsPieces
    (hboth.guard_mono fun _ _ h => h.1)
  exact ⟨request, _, hpath, rfl, hread.1, hread.2 hboth⟩

end Lhs.Server
